import CircuitFixtures.CommandLine.Run

/-!
# Commands that look at a fixture

A run is its action under the configuration that is loaded (`Invocation.run_eq`), and an action on
a source is one on the fixture that the source gives (`Run.withFixture_eq`). Of two sources of the
same fixture, whatever the trees around them are, each command that changes nothing shows the same
(`Run.action_looks`).
-/

namespace CircuitFixtures

theorem Invocation.run_eq {i : Invocation} {p : Place} {t : FileTree} {c : Config}
    (h : i.load p t = .ok c) : i.run p t = Run.action p c t i.action := by
  rw [run, h]

namespace Run

variable {p : Place} {c : Config} {s : FixtureSource} {f : Fixture} {t t' : FileTree}

theorem withFixture_eq {go : Fixture → Outcome} (h : s.resolve t p.names c = .ok f) :
    withFixture p c t s go = go f := by
  rw [withFixture, h]

/-- Actions that look at a fixture and change nothing. -/
inductive Looks : (FixtureSource → Action) → Prop where
  | check : Looks .check
  | inspect : Looks .inspect
  | witness (expected json : Bool) : Looks (.witness · expected json)
  | publicWitness : Looks .publicWitness

/-- What is shown, or what went wrong, is the same. -/
def SameReport (a b : Outcome) : Prop :=
  a.shown = b.shown ∧ a.causes = b.causes

theorem check_sameReport (t t' : FileTree) (f : Fixture) :
    SameReport (check t f) (check t' f) := by
  simp only [check]
  cases f.check <;> exact ⟨rfl, rfl⟩

theorem inspect_sameReport (t t' : FileTree) (f : Fixture) :
    SameReport (inspect t f) (inspect t' f) := by
  simp only [inspect]
  cases f.circuit <;> exact ⟨rfl, rfl⟩

theorem publicWitness_sameReport (t t' : FileTree) (f : Fixture) :
    SameReport (publicWitness t f) (publicWitness t' f) := by
  simp only [publicWitness]
  cases f.circuit with
  | error e => exact ⟨rfl, rfl⟩
  | ok c =>
    dsimp only
    cases c.parameterWitness f.expected with
    | error i => exact ⟨rfl, rfl⟩
    | ok parameters => cases c.returnWitness f.expected <;> exact ⟨rfl, rfl⟩

/-- Two sources of the same fixture look the same. -/
theorem action_looks {look : FixtureSource → Action} (hlook : Looks look) {s' : FixtureSource}
    {c' : Config} (h : s.resolve t p.names c = .ok f) (h' : s'.resolve t' p.names c' = .ok f) :
    SameReport (action p c' t' (look s')) (action p c t (look s)) := by
  cases hlook with
  | check =>
    rw [action, action, withFixture_eq h, withFixture_eq h']
    exact check_sameReport t' t f
  | inspect =>
    rw [action, action, withFixture_eq h, withFixture_eq h']
    exact inspect_sameReport t' t f
  | witness expected json =>
    rw [action, action, withFixture_eq h, withFixture_eq h']
    exact ⟨rfl, rfl⟩
  | publicWitness =>
    rw [action, action, withFixture_eq h, withFixture_eq h']
    exact publicWitness_sameReport t' t f

/-- A run of the check that ends well had a fixture that passes. -/
theorem exists_of_check {i : Invocation} {s : FixtureSource} {p : Place} {t : FileTree}
    (h : ({ i with action := .check s }.run p t).exitCode = 0) :
    ∃ cfg f report, i.load p t = .ok cfg ∧ s.resolve t p.names cfg = .ok f ∧
      f.check = .ok report := by
  rw [Invocation.run] at h
  split at h
  · cases h
  · rename_i cfg hload
    simp only [Run.action, Run.withFixture] at h
    split at h
    · cases h
    · rename_i f hresolve
      rw [Run.check] at h
      split at h
      · cases h
      · rename_i report hcheck
        exact ⟨cfg, f, report, hload, hresolve, hcheck⟩

end Run

end CircuitFixtures
