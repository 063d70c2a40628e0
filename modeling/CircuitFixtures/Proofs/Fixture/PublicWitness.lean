import CircuitFixtures.Proofs.Assignment.Restriction
import CircuitFixtures.Proofs.CommandLine.Looking
import CircuitFixtures.Proofs.Fixture.Edits
import CircuitFixtures.Proofs.Fixture.Source

/-!
# What a verifier sees of a fixture that passes

The public parameters of the circuit are arguments, so the initial assignment gives them values
and the expected one keeps these; the return value is the one entry that is new
(`Consistent.seen`). So the commands that show the circuit and its public witness do not fail
where the check passes.
-/

namespace CircuitFixtures.Fixture

open IndexMap

/-- What a verifier of the circuit `c` sees of the fixture: the values of the parameters, which
stand in the initial assignment, those that are returned, and both together. -/
structure Seen (f : Fixture) (c : Circuit) (parameters returns both : Assignment) : Prop where
  circuit_eq : f.circuit = .ok c
  parameters_eq : c.parameterWitness f.expected = .ok parameters
  returns_eq : c.returnWitness f.expected = .ok returns
  both_eq : c.publicWitness f.expected = .ok both
  keys_parameters : parameters.keys = c.publicParameters.elems
  keys_returns : returns.keys = c.returnValues.elems
  parameters_initial : parameters = f.initial.filter fun i _ => c.publicParameters.contains i
  size_returns : returns.size = 1
  disjoint : ∀ i ∈ parameters.keys, i ∉ returns.keys
  get?_both : ∀ i, both.get? i = (parameters.get? i).or (returns.get? i)

section

variable {f : Fixture} {c : Circuit} {n : Nat} {w : Index} {x : Field}

theorem Consistent.mem_initial_of_parameter (h : f.Consistent c n w x) {i : Index}
    (hi : i ∈ c.publicParameters.elems) : i ∈ f.initial.keys := by
  rw [← h.arguments_eq]
  exact IndexSet.mem_union.2 (.inr hi)

theorem Consistent.ne_returned (h : f.Consistent c n w x) {i : Index}
    (hi : i ∈ f.initial.keys) : i ≠ w := by
  rintro rfl
  exact get?_eq_none_iff.1 h.get?_returned hi

/-- The parameters have the values that the initial assignment gives them. -/
theorem Consistent.parameterWitness_eq (h : f.Consistent c n w x) :
    c.parameterWitness f.expected =
      .ok (f.initial.filter fun i _ => c.publicParameters.contains i) := by
  have hinitial := Assignment.restrict_of_forall_mem fun i => h.mem_initial_of_parameter (i := i)
  refine Assignment.restrict_of_agree (fun i hi => ?_) hinitial
  exact h.get?_initial (h.ne_returned (h.mem_initial_of_parameter hi))

theorem Consistent.returnWitness_eq (h : f.Consistent c n w x) :
    c.returnWitness f.expected = .ok (empty.insert w x) := by
  have hw : f.expected.get? w = some x := by rw [h.expected, get?_insert, if_pos rfl]
  exact Assignment.restrict_single (elems_eq_single_iff.2 h.returns) hw

theorem Consistent.seen (h : f.Consistent c n w x) :
    ∃ parameters both, f.Seen c parameters (empty.insert w x) both := by
  obtain ⟨both, hboth, hunion⟩ :=
    Assignment.restrict_union h.parameterWitness_eq h.returnWitness_eq
  have hkeys := Assignment.keys_of_restrict h.parameterWitness_eq
  refine ⟨_, both, {
    circuit_eq := h.circuit_eq
    parameters_eq := h.parameterWitness_eq
    returns_eq := h.returnWitness_eq
    both_eq := hboth
    keys_parameters := hkeys
    keys_returns := Assignment.keys_of_restrict h.returnWitness_eq
    parameters_initial := rfl
    size_returns := rfl
    disjoint := fun i hi hw => ?_
    get?_both := hunion }⟩
  rw [hkeys] at hi
  exact h.ne_returned (h.mem_initial_of_parameter hi) (List.mem_singleton.1 hw)

end

theorem Seen.inspect_eq {f : Fixture} {c : Circuit} {parameters returns both : Assignment}
    (h : f.Seen c parameters returns both) (t : FileTree) :
    Run.inspect t f = .done t (linesText (c.lines f.name)) := by
  rw [Run.inspect]
  simp only [h.circuit_eq]

theorem Seen.publicWitness_eq {f : Fixture} {c : Circuit} {parameters returns both : Assignment}
    (h : f.Seen c parameters returns both) (t : FileTree) :
    Run.publicWitness t f = .done t (linesText (parameters.titled "Public parameters" ++
      returns.titled "Return values")) := by
  rw [Run.publicWitness]
  simp only [h.circuit_eq, h.parameters_eq, h.returns_eq]

/-- A fixture that passes its check has a complete public witness: its report's outputs, and the
values that the initial assignment gives the public parameters. Where the check command ends well,
those that show the circuit and the public witness do too. -/
theorem check_public_witness :
    (∀ (f : Fixture) (report : Report), f.check = .ok report →
      ∃ c parameters both, f.Seen c parameters report.outputs both ∧
        ∀ t, Run.inspect t f = .done t (linesText (c.lines f.name)) ∧
          Run.publicWitness t f =
            .done t (linesText (parameters.titled "Public parameters" ++
              report.outputs.titled "Return values"))) ∧
      ∀ (i : Invocation) (s : FixtureSource) (p : Place) (t : FileTree),
        ({ i with action := .check s }.run p t).exitCode = 0 →
          ({ i with action := .inspect s }.run p t).exitCode = 0 ∧
            ({ i with action := .publicWitness s }.run p t).exitCode = 0 := by
  have seen (f : Fixture) (report : Report) (h : f.check = .ok report) :
      ∃ c parameters both, f.Seen c parameters report.outputs both := by
    obtain ⟨c, n, w, x, hf, rfl⟩ := (check_eq_ok_iff f report).1 h
    exact ⟨c, hf.seen⟩
  constructor
  · intro f report h
    obtain ⟨c, parameters, both, hseen⟩ := seen f report h
    exact ⟨c, parameters, both, hseen, fun t => ⟨hseen.inspect_eq t, hseen.publicWitness_eq t⟩⟩
  · intro i s p t h
    obtain ⟨cfg, f, report, hload, hresolve, hcheck⟩ := Run.exists_of_check h
    obtain ⟨c, parameters, both, hseen⟩ := seen f report hcheck
    have hload' (a : Action) : Invocation.load { i with action := a } p t = .ok cfg := hload
    constructor
    · rw [Invocation.run_eq (hload' _), Run.action, Run.withFixture_eq hresolve, hseen.inspect_eq]
      rfl
    · rw [Invocation.run_eq (hload' _), Run.action, Run.withFixture_eq hresolve,
        hseen.publicWitness_eq]
      rfl

/-- The sample fixture, and a run that shows its circuit. -/
theorem sample_public_witness :
    (sample "sample" Field.zero).check =
        .ok ((sample "sample" Field.zero).reportOf Circuit.sample 2 3 Field.zero) ∧
      (∃ c parameters both,
        (sample "sample" Field.zero).Seen c parameters (empty.insert 3 Field.zero) both) ∧
      (Invocation.run ⟨none, none, .inspect (.ofFile FixtureSource.sampleFile), 0, false⟩
        ⟨[], []⟩ FixtureSource.sampleTree).exitCode = 0 := by
  have hcheck := check_sample "sample" Field.zero
  obtain ⟨c, parameters, both, hseen, -⟩ := check_public_witness.1 _ _ hcheck
  have hrun : (Invocation.run ⟨none, none, .check (.ofFile FixtureSource.sampleFile), 0, false⟩
      ⟨[], []⟩ FixtureSource.sampleTree).exitCode = 0 := by
    have hload : Invocation.load ⟨none, none, .check (.ofFile FixtureSource.sampleFile), 0, false⟩
        ⟨[], []⟩ FixtureSource.sampleTree =
          .ok ⟨.ofString "/fixtures", Config.default.defaultFixture, none⟩ := rfl
    rw [Invocation.run_eq hload, Run.action,
      Run.withFixture_eq (FixtureSource.resolve_sample _), Run.check, hcheck]
    rfl
  exact ⟨hcheck, ⟨c, parameters, both, hseen⟩,
    (check_public_witness.2 ⟨none, none, .list, 0, false⟩ _ _ _ hrun).1⟩

end CircuitFixtures.Fixture
