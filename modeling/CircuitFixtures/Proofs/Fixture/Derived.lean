import CircuitFixtures.Proofs.Fixture.Check

/-!
# Expected assignments that are derived

`Fixture.deriveExpected` makes an expected assignment of an initial one, an index and a value, and
the check compares two assignments that were made anyhow. They describe the same relation: an
assignment can be derived from another exactly where one entry is added and none changed
(`Fixture.exists_derived_iff`), and then in one way (`Fixture.derived_unique`). With a circuit that
is not solved yet (`Fixture.Unsolved`), the assignments that can be derived for its return value are
those that pass the check (`Unsolved.check_eq_ok_iff_derived`).
-/

namespace CircuitFixtures.Fixture

open IndexMap

section

variable {m n : Assignment} {i j : Index} {x y : Field}

/-! ## Deriving -/

theorem deriveExpected_eq_ok_iff :
    deriveExpected m i x = .ok n ↔ m.get? i = none ∧ n = m.insert i x := by
  rw [deriveExpected, get?_eq_none_iff, ← contains_iff_mem_keys]
  cases m.contains i with
  | false => simp [eq_comm]
  | true => simp

/-- The only index that is refused is the one that has a value already. -/
theorem deriveExpected_eq_error_iff :
    deriveExpected m i x = .error j ↔ i ∈ m.keys ∧ j = i := by
  rw [deriveExpected, ← contains_iff_mem_keys]
  cases m.contains i with
  | false => simp
  | true => simp [eq_comm]

theorem exists_derived_iff :
    (n.difference m).size = 1 ∧ (m.difference n).isEmpty = true ↔
      ∃ i x, deriveExpected m i x = .ok n := by
  simp only [deriveExpected_eq_ok_iff]
  constructor
  · rintro ⟨hadded, hchanged⟩
    obtain ⟨i, x, hi, hn, -⟩ := Assignment.extends_iff.1 ⟨rfl, hadded, hchanged⟩
    exact ⟨i, x, hi, hn⟩
  · rintro ⟨i, x, hi, hn⟩
    have hadded : n.difference m = empty.insert i x := by
      rw [hn, Assignment.difference_insert x hi]
    exact (Assignment.extends_iff.2 ⟨i, x, hi, hn, hadded⟩).2

/-- The entry that was added can be told from the two assignments. -/
theorem derived_unique (h : deriveExpected m i x = .ok n) (h' : deriveExpected m j y = .ok n) :
    i = j ∧ x = y := by
  obtain ⟨hi, hn⟩ := deriveExpected_eq_ok_iff.1 h
  obtain ⟨hj, hn'⟩ := deriveExpected_eq_ok_iff.1 h'
  have hentry : (empty.insert i x : Assignment) = empty.insert j y := by
    rw [← Assignment.difference_insert x hi, ← Assignment.difference_insert y hj, ← hn, ← hn']
  have hentries : [(i, x)] = [(j, y)] := congrArg entries hentry
  cases hentries
  exact ⟨rfl, rfl⟩

end

/-! ## Fixtures of a circuit -/

/-- The fixture of a circuit as it is written, with two assignments. -/
def ofCircuit (name : String) (c : Circuit) (initial expected : Assignment) : Fixture where
  name := name
  bytecode := c.toArchive
  initial := initial
  expected := expected

/-- The assignment has values for the `n` arguments of the circuit and no others, and `i` is what
the circuit returns and none of them. -/
structure Unsolved (c : Circuit) (m : Assignment) (n : Nat) (i : Index) : Prop where
  fits : c.Fits
  nonempty : 1 ≤ n
  keys : Index.UpTo n m.keys
  arguments : Index.UpTo n c.arguments.elems
  returns : ∀ j, j ∈ c.returnValues.elems ↔ j = i
  notArgument : ¬ (1 ≤ i.toNat ∧ i.toNat ≤ n)

section

variable {name : String} {c : Circuit} {m e : Assignment} {n : Nat} {i : Index} {x : Field}
  {report : Report}

theorem Unsolved.get?_returned (h : Unsolved c m n i) : m.get? i = none :=
  get?_eq_none_iff.2 fun hi => h.notArgument (h.keys.mem_iff.1 hi)

theorem Unsolved.consistent (h : Unsolved c m n i) (name : String) (x : Field) :
    (ofCircuit name c m (m.insert i x)).Consistent c n i x where
  fits := h.fits
  decompress := Gzip.decompress_compress _
  compress := rfl
  nonempty := h.nonempty
  keys := h.keys
  arguments := h.arguments
  notArgument := h.notArgument
  returns := h.returns
  expected := rfl

theorem circuit_ofCircuit (hc : c.Fits) : (ofCircuit name c m e).circuit = .ok c :=
  Circuit.ofArchive_toArchive hc

/-- A fixture of the circuit that passes adds a value of the index that the circuit returns. -/
theorem Unsolved.eq_insert_of_check (h : Unsolved c m n i)
    (hcheck : (ofCircuit name c m e).check = .ok report) :
    ∃ x, e = m.insert i x ∧ report = (ofCircuit name c m e).reportOf c n i x := by
  obtain ⟨c', n', i', x, hf, hreport⟩ := (check_eq_ok_iff _ report).1 hcheck
  obtain rfl : c = c' := by
    have hcircuit := hf.circuit_eq
    rw [circuit_ofCircuit h.fits] at hcircuit
    exact Except.ok.inj hcircuit
  obtain rfl : n = n' := by
    rw [← h.keys.length_eq m.ascending_keys, ← hf.keys.length_eq m.ascending_keys]
  obtain rfl : i = i' := (hf.returns i).1 ((h.returns i).2 rfl)
  exact ⟨x, hf.expected, hreport⟩

theorem Unsolved.check_eq_ok_iff_derived (h : Unsolved c m n i) :
    (ofCircuit name c m e).check = .ok report ↔
      ∃ x, deriveExpected m i x = .ok e ∧
        report = (ofCircuit name c m e).reportOf c n i x := by
  simp only [deriveExpected_eq_ok_iff, h.get?_returned, true_and]
  constructor
  · exact h.eq_insert_of_check
  · rintro ⟨x, rfl, rfl⟩
    exact (check_eq_ok_iff _ _).2 ⟨c, n, i, x, h.consistent name x, rfl⟩

end

/-- Deriving and checking agree. An assignment adds one entry to another and changes none exactly
where it is derived from it, by one index and one value; an index is refused exactly where it has a
value; and with a circuit that is not solved yet, every value of the index that it returns makes an
assignment that passes the check, and no other assignment does. -/
theorem derived_exactly_accepted :
    (∀ m n : Assignment,
      ((n.difference m).size = 1 ∧ (m.difference n).isEmpty = true ↔
        ∃ i x, deriveExpected m i x = .ok n) ∧
      ∀ i x j y, deriveExpected m i x = .ok n → deriveExpected m j y = .ok n → i = j ∧ x = y) ∧
    (∀ (m : Assignment) (i : Index) (x : Field),
      ((∃ j, deriveExpected m i x = .error j) ↔ i ∈ m.keys) ∧
      ∀ j, deriveExpected m i x = .error j → j = i) ∧
    ∀ (name : String) (c : Circuit) (m : Assignment) (n : Nat) (i : Index), Unsolved c m n i →
      (∀ x, ∃ e, deriveExpected m i x = .ok e ∧
        (ofCircuit name c m e).check = .ok ((ofCircuit name c m e).reportOf c n i x)) ∧
      ∀ e report, (ofCircuit name c m e).check = .ok report →
        ∃ x, deriveExpected m i x = .ok e := by
  refine ⟨fun m n => ⟨exists_derived_iff, fun _ _ _ _ => derived_unique⟩,
    fun m i x => ⟨?_, fun j hj => (deriveExpected_eq_error_iff.1 hj).2⟩,
    fun name c m n i h => ⟨fun x => ?_, fun e report hcheck => ?_⟩⟩
  · simp only [deriveExpected_eq_error_iff, exists_and_left, exists_eq, and_true]
  · have hderived : deriveExpected m i x = .ok (m.insert i x) :=
      deriveExpected_eq_ok_iff.2 ⟨h.get?_returned, rfl⟩
    exact ⟨m.insert i x, hderived, h.check_eq_ok_iff_derived.2 ⟨x, hderived, rfl⟩⟩
  · obtain ⟨x, hx, -⟩ := h.check_eq_ok_iff_derived.1 hcheck
    exact ⟨x, hx⟩

/-- The sample circuit before it is solved. -/
theorem unsolved_sample (name : String) (x : Field) :
    Unsolved Circuit.sample (sample name x).initial 2 3 := by
  have h := sample_consistent name x
  exact ⟨h.fits, h.nonempty, h.keys, h.arguments, h.returns, h.notArgument⟩

/-- The sample circuit, solved by a value for what it returns, and an argument that has a value. -/
theorem sample_derived :
    Unsolved Circuit.sample (sample "derived" Field.zero).initial 2 3 ∧
      (∃ e, deriveExpected (sample "derived" Field.zero).initial 3 Field.one = .ok e ∧
        (ofCircuit "derived" Circuit.sample (sample "derived" Field.zero).initial e).check =
          .ok ((ofCircuit "derived" Circuit.sample (sample "derived" Field.zero).initial e).reportOf
            Circuit.sample 2 3 Field.one)) ∧
      deriveExpected (sample "derived" Field.zero).initial 1 Field.one = .error 1 := by
  obtain ⟨-, hrefused, hsolved⟩ := derived_exactly_accepted
  have h := unsolved_sample "derived" Field.zero
  have hpresent : (1 : Index) ∈ (sample "derived" Field.zero).initial.keys := by decide
  obtain ⟨hexists, hindex⟩ := hrefused (sample "derived" Field.zero).initial 1 Field.one
  obtain ⟨j, hj⟩ := hexists.2 hpresent
  exact ⟨h, (hsolved "derived" _ _ _ _ h).1 Field.one, hindex j hj ▸ hj⟩

end CircuitFixtures.Fixture
