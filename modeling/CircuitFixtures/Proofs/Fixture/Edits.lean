import CircuitFixtures.Proofs.Assignment.Edits
import CircuitFixtures.Proofs.Fixture.Check

/-!
# Edits that a check finds

A fixture that passes has no entry too many, too few or of another value, but for the value of the
returned index, which nothing else in the fixture fixes. `Fixture.ExpectedEdits` and
`Fixture.InitialEdits` name every way to insert, overwrite or erase one entry of an assignment,
with the fault that the check then reports. The first stage of the check sees the bytecode alone
and passes as before (`Consistent.checkBytecode_eq`), so each edit is traced through the two others.
-/

namespace CircuitFixtures.Fixture

open IndexMap

/-! ## Stages that fail -/

theorem isEmpty_eq_false_of_mem_keys {m : Assignment} {i : Index} (h : i ∈ m.keys) :
    m.isEmpty = false :=
  Bool.eq_false_iff.2 (exists_mem_keys_iff.1 ⟨i, h⟩)

theorem checkInitial_of_gap {c : Circuit} {m : Assignment} {i : Index} (hi : i ∈ m.keys)
    (hgap : ¬ ∃ n, Index.UpTo n m.keys) : checkInitial c m = .error .gapInInitial := by
  rw [← Assignment.isContiguousFrom_one_iff_exists] at hgap
  simp [checkInitial, firstIndex, isEmpty_eq_false_of_mem_keys hi, hgap]

theorem checkInitial_of_arguments {c : Circuit} {m : Assignment} {n : Nat} (hn : 1 ≤ n)
    (hm : Index.UpTo n m.keys) (hne : c.arguments.elems ≠ m.keys) :
    checkInitial c m = .error (.argumentsDiffer c.arguments.elems m.keys) := by
  obtain ⟨i, hi, -⟩ := List.mem_map.1 ((hm n).2 ⟨hn, Nat.le_refl n⟩)
  have hcontiguous := (Assignment.isContiguousFrom_one_iff_exists m).2 ⟨n, hm⟩
  simp [checkInitial, firstIndex, isEmpty_eq_false_of_mem_keys hi, hcontiguous, hne]

theorem checkExpected_of_sizes {c : Circuit} {m n : Assignment} {added changed : Nat}
    (hadded : (n.difference m).size = added) (hchanged : (m.difference n).size = changed)
    (h : added ≠ 1 ∨ changed ≠ 0) :
    checkExpected c m n = .error (.wrongAdditions added changed) := by
  subst hadded
  subst hchanged
  rw [checkExpected, if_pos]
  rcases h with h | h
  · exact .inl h
  · right
    rw [Bool.not_eq_true', ← Bool.not_eq_true, isEmpty_iff_size_eq_zero]
    exact h

/-! ## A consistent fixture with other assignments -/

section

variable {f : Fixture} {c : Circuit} {n : Nat} {w : Index} {x : Field}

theorem Consistent.checkBytecode_eq (h : f.Consistent c n w x) :
    checkBytecode f.bytecode = .ok (c.toPayload, c) :=
  checkBytecode_eq_ok_iff.2 ⟨h.fits, h.decompress, h.compress, rfl⟩

theorem Consistent.checkInitial_eq (h : f.Consistent c n w x) {m : Assignment}
    (hm : ∀ i, i ∈ m.keys ↔ i ∈ f.initial.keys) : checkInitial c m = .ok () := by
  refine checkInitial_eq_ok_iff.2 ⟨n, h.nonempty, ?_, h.arguments⟩
  exact Index.upTo_of_mem_iff h.keys.lt_size fun i => (hm i).trans h.keys.mem_iff

theorem Consistent.arguments_eq (h : f.Consistent c n w x) :
    c.arguments.elems = f.initial.keys :=
  h.arguments.eq c.arguments.ascending f.initial.ascending_keys h.keys

theorem Consistent.get?_returned (h : f.Consistent c n w x) : f.initial.get? w = none :=
  get?_eq_none_iff.2 fun hw => h.notArgument (h.keys.mem_iff.1 hw)

/-- An entry of the expected assignment other than the returned one stands in the initial one. -/
theorem Consistent.get?_initial (h : f.Consistent c n w x) {i : Index} (hi : i ≠ w) :
    f.initial.get? i = f.expected.get? i := by
  rw [h.expected, get?_insert, if_neg hi]

theorem Consistent.added (h : f.Consistent c n w x) :
    f.expected.difference f.initial = empty.insert w x := by
  rw [h.expected]
  exact Assignment.difference_insert x h.get?_returned

theorem Consistent.changed (h : f.Consistent c n w x) :
    f.initial.difference f.expected = empty := by
  rw [h.expected]
  exact Assignment.difference_of_insert x h.get?_returned

/-- With the bytecode as it is, the stages for the two assignments decide. -/
theorem Consistent.check_edited_initial (h : f.Consistent c n w x) {m : Assignment}
    {e : CheckFault} (hm : checkInitial c m = .error e) :
    check { f with initial := m } = .error e := by
  rw [check, h.checkBytecode_eq]
  simp only [hm]

theorem Consistent.check_edited_expected (h : f.Consistent c n w x) {m m' : Assignment}
    {e : CheckFault} (hm : ∀ i, i ∈ m.keys ↔ i ∈ f.initial.keys)
    (he : checkExpected c m m' = .error e) :
    check { f with initial := m, expected := m' } = .error e := by
  rw [check, h.checkBytecode_eq]
  simp only [h.checkInitial_eq hm, he]

end

/-! ## Edits of the expected assignment -/

/-- What becomes of the check where one entry of the expected assignment is edited, if `w` is the
returned index. -/
structure ExpectedEdits (f : Fixture) (w : Index) : Prop where
  insert : ∀ i v, f.expected.get? i = none →
    check { f with expected := f.expected.insert i v } = .error (.wrongAdditions 2 0)
  overwrite : ∀ i y v, i ≠ w → f.expected.get? i = some y → v ≠ y →
    check { f with expected := f.expected.insert i v } = .error (.wrongAdditions 2 1)
  eraseReturned :
    check { f with expected := f.expected.erase w } = .error (.wrongAdditions 0 0)
  erase : ∀ i y, i ≠ w → f.expected.get? i = some y →
    check { f with expected := f.expected.erase i } = .error (.wrongAdditions 1 1)

section

variable {f : Fixture} {c : Circuit} {n : Nat} {w : Index} {x : Field}

private theorem single_get?_of_ne {i : Index} (hi : i ≠ w) :
    (empty.insert w x).get? i = none := by
  rw [get?_single, if_neg hi]

private theorem size_pair {i : Index} (hi : i ≠ w) (y : Field) :
    ((empty.insert w x).insert i y).size = 2 :=
  size_insert y (single_get?_of_ne hi)

theorem Consistent.expectedEdits (h : f.Consistent c n w x) : f.ExpectedEdits w where
  insert := by
    intro i v hi
    have hw : i ≠ w := by
      rintro rfl
      rw [h.expected, get?_insert, if_pos rfl] at hi
      cases hi
    have hm : f.initial.get? i = none := by rw [h.get?_initial hw, hi]
    refine h.check_edited_expected (fun _ => Iff.rfl) (checkExpected_of_sizes ?_ ?_ (by decide))
    · rw [Assignment.difference_insert_left (by simp [hm]), h.added]
      exact size_pair hw v
    · rw [Assignment.difference_insert_right_of_none hm, h.changed]
      rfl
  overwrite := by
    intro i y v hw hi hv
    have hm : f.initial.get? i = some y := by rw [h.get?_initial hw, hi]
    refine h.check_edited_expected (fun _ => Iff.rfl) (checkExpected_of_sizes ?_ ?_ (by decide))
    · rw [Assignment.difference_insert_left (by simp [hm, hv.symm]), h.added]
      exact size_pair hw v
    · rw [Assignment.difference_insert_right hm hv, h.changed]
      rfl
  eraseReturned := by
    have herase : f.expected.erase w = f.initial := by
      rw [h.expected, erase_insert x h.get?_returned]
    rw [herase]
    refine h.check_edited_expected (fun _ => Iff.rfl) (checkExpected_of_sizes ?_ ?_ (by decide))
    · rw [Assignment.difference_self]
      rfl
    · rw [Assignment.difference_self]
      rfl
  erase := by
    intro i y hw hi
    have hm : f.initial.get? i = some y := by rw [h.get?_initial hw, hi]
    refine h.check_edited_expected (fun _ => Iff.rfl) (checkExpected_of_sizes ?_ ?_ (by decide))
    · rw [Assignment.difference_erase_left, h.added,
        erase_of_get?_eq_none (single_get?_of_ne hw)]
      rfl
    · rw [Assignment.difference_erase_right hm, h.changed]
      rfl

end

/-! ## Edits of the initial assignment -/

/-- What becomes of the check where one entry of the initial assignment is edited, if its indices
are those from 1 to `n`. -/
structure InitialEdits (f : Fixture) (n : Nat) : Prop where
  overwrite : ∀ i y v, f.initial.get? i = some y → v ≠ y →
    check { f with initial := f.initial.insert i v } = .error (.wrongAdditions 2 1)
  insertNext : ∀ i v, i.toNat = n + 1 →
    check { f with initial := f.initial.insert i v } =
      .error (.argumentsDiffer f.initial.keys (f.initial.insert i v).keys)
  insertOther : ∀ i v, f.initial.get? i = none → i.toNat ≠ n + 1 →
    check { f with initial := f.initial.insert i v } = .error .gapInInitial
  eraseOnly : ∀ i y, f.initial.get? i = some y → n = 1 →
    check { f with initial := f.initial.erase i } = .error .noInitial
  eraseLast : ∀ i, 1 < n → i.toNat = n →
    check { f with initial := f.initial.erase i } =
      .error (.argumentsDiffer f.initial.keys (f.initial.erase i).keys)
  eraseOther : ∀ i y, f.initial.get? i = some y → i.toNat ≠ n →
    check { f with initial := f.initial.erase i } = .error .gapInInitial

section

variable {f : Fixture} {c : Circuit} {n : Nat} {w : Index} {x : Field}

theorem Consistent.initialEdits (h : f.Consistent c n w x) : f.InitialEdits n where
  overwrite := by
    intro i y v hi hv
    have hw : i ≠ w := by
      rintro rfl
      rw [h.get?_returned] at hi
      cases hi
    have he : f.expected.get? i = some y := by rw [← h.get?_initial hw, hi]
    have hkeys (j : Index) : j ∈ (f.initial.insert i v).keys ↔ j ∈ f.initial.keys := by
      rw [mem_keys_insert, or_iff_right_of_imp]
      rintro rfl
      exact mem_keys_of_get? hi
    refine h.check_edited_expected hkeys (checkExpected_of_sizes ?_ ?_ (by decide))
    · rw [Assignment.difference_insert_right he hv, h.added]
      exact size_pair hw y
    · rw [Assignment.difference_insert_left (by simp [he, hv.symm]), h.changed]
      rfl
  insertNext := by
    intro i v hi
    have hup := Assignment.upTo_insert_next (x := v) h.keys hi
    have hne : c.arguments.elems ≠ (f.initial.insert i v).keys := by
      intro heq
      have hmem := hup.mem_iff.2 (by omega : 1 ≤ i.toNat ∧ i.toNat ≤ n + 1)
      rw [← heq, h.arguments.mem_iff] at hmem
      omega
    rw [← h.arguments_eq]
    exact h.check_edited_initial (checkInitial_of_arguments (by omega) hup hne)
  insertOther := by
    intro i v hi hne
    have hgap := Assignment.not_upTo_insert (x := v) h.keys (get?_eq_none_iff.1 hi) hne
    exact h.check_edited_initial (checkInitial_of_gap (mem_keys_insert.2 (.inl rfl)) hgap)
  eraseOnly := by
    rintro i y hi rfl
    have hlast : i.toNat = 0 + 1 := by
      have hle := h.keys.mem_iff.1 (mem_keys_of_get? hi)
      omega
    have hup := Assignment.upTo_erase_last h.keys hlast
    have hempty : f.initial.erase i = empty := by
      apply ext_get?
      intro j
      rw [get?_empty, get?_eq_none_iff, hup.mem_iff]
      omega
    rw [hempty]
    exact h.check_edited_initial rfl
  eraseLast := by
    intro i hn hi
    obtain ⟨k, rfl⟩ : ∃ k, n = k + 1 := ⟨n - 1, by omega⟩
    have hup := Assignment.upTo_erase_last h.keys hi
    have hne : c.arguments.elems ≠ (f.initial.erase i).keys := by
      intro heq
      have hmem := h.arguments.mem_iff.2 (by omega : 1 ≤ i.toNat ∧ i.toNat ≤ k + 1)
      rw [heq, hup.mem_iff] at hmem
      omega
    rw [← h.arguments_eq]
    exact h.check_edited_initial (checkInitial_of_arguments (by omega) hup hne)
  eraseOther := by
    intro i y hi hne
    have hmem := mem_keys_of_get? hi
    have hgap := Assignment.not_upTo_erase h.keys hmem hne
    -- The last index is left, so the assignment is not empty.
    obtain ⟨j, hj, hval⟩ := List.mem_map.1 ((h.keys n).2 ⟨h.nonempty, Nat.le_refl n⟩)
    have hkept : j ∈ (f.initial.erase i).keys :=
      mem_keys_erase.2 ⟨fun hji => hne (by rw [← hji, hval]), hj⟩
    exact h.check_edited_initial (checkInitial_of_gap hkept hgap)

theorem Consistent.overwriteReturned (h : f.Consistent c n w x) (v : Field) :
    Consistent { f with expected := f.expected.insert w v } c n w v :=
  { h with expected := by rw [h.expected, insert_insert] }

end

/-- A fixture that passes: every edit of one entry of an assignment is found, with the fault that
it is found by, but for another value of the returned index, which is reported instead. -/
theorem check_finds_edits {f : Fixture} {report : Report} (h : f.check = .ok report) :
    ∃ w x, report.outputs = empty.insert w x ∧ Index.UpTo report.inputs f.initial.keys ∧
      f.ExpectedEdits w ∧ f.InitialEdits report.inputs ∧
      ∀ v, check { f with expected := f.expected.insert w v } =
        .ok { report with outputs := empty.insert w v } := by
  obtain ⟨c, n, w, x, hf, rfl⟩ := (check_eq_ok_iff f report).1 h
  refine ⟨w, x, rfl, hf.keys, hf.expectedEdits, hf.initialEdits, fun v => ?_⟩
  exact (check_eq_ok_iff _ _).2 ⟨c, n, w, v, hf.overwriteReturned v, rfl⟩

/-- The sample fixture, with one edit of each kind. -/
theorem sample_edits :
    (sample "edited" Field.zero).check =
        .ok ((sample "edited" Field.zero).reportOf Circuit.sample 2 3 Field.zero) ∧
      check { sample "edited" Field.zero with
          expected := (sample "edited" Field.zero).expected.insert 2 Field.one } =
        .error (.wrongAdditions 2 1) ∧
      check { sample "edited" Field.zero with
          initial := (sample "edited" Field.zero).initial.erase 1 } =
        .error .gapInInitial ∧
      check { sample "edited" Field.zero with
          expected := (sample "edited" Field.zero).expected.insert 3 Field.one } =
        .ok ((sample "edited" Field.zero).reportOf Circuit.sample 2 3 Field.one) := by
  have hcheck : (sample "edited" Field.zero).check =
      .ok ((sample "edited" Field.zero).reportOf Circuit.sample 2 3 Field.zero) :=
    (check_eq_ok_iff _ _).2 ⟨_, _, _, _, sample_consistent "edited" Field.zero, rfl⟩
  obtain ⟨w, x, hout, -, hexpected, hinitial, hreturned⟩ := check_finds_edits hcheck
  have hw : w = 3 := by
    have hkeys := congrArg keys hout
    exact (List.cons.inj hkeys).1.symm
  subst hw
  exact ⟨hcheck, hexpected.overwrite 2 Field.zero Field.one (by decide) rfl (by decide),
    hinitial.eraseOther 1 Field.one rfl (by decide), hreturned Field.one⟩

end CircuitFixtures.Fixture
