import CircuitFixtures.Proofs.CommandLine.Listing

/-!
# Where a fixture comes from

A file that is named comes first, then the builtin fixtures, then the fixtures directory, and what
comes later is not looked at (`FixtureSource.resolution_order`). A name is not found only where its
path leads to no entry. Where it cannot be told whether it does, for instance since a file stands in
the way, that is the fault (`FixtureSource.blocked_name_unknown`).
-/

namespace CircuitFixtures

namespace FixtureSource

variable {t t' : FileTree} {cwd cwd' : Names} {c c' : Config} {s : FixtureSource} {path : Path}
variable {name : List Char} {given given' : Option (List Char)}

/-- The name of the fixture where no file is named. -/
def meant (s : FixtureSource) (c : Config) : List Char :=
  s.name.getD c.defaultFixture

/-- The name is that of a builtin fixture. -/
def IsBuiltin (name : List Char) : Prop :=
  String.ofList name ∈ Fixture.builtinNames

instance (name : List Char) : Decidable (IsBuiltin name) :=
  inferInstanceAs (Decidable (_ ∈ _))

/-- The path of the name leads to an entry. -/
def IsThere (t : FileTree) (cwd : Names) (c : Config) (name : List Char) : Prop :=
  ∃ entry, t.entryAt cwd (c.fixturePath name) = .ok entry

/-! ## Files -/

theorem resolve_file (h : t.read cwd path = t'.read cwd' path) :
    resolve t cwd c ⟨given, some path⟩ = resolve t' cwd' c' ⟨given', some path⟩ := by
  simp only [resolve, readArtifact, h]

theorem ofContent_ne_notFound (content : List UInt8) (name : List Char) :
    ofContent path content ≠ .error (.notFound name) := by
  rw [ofContent]
  split
  · simp
  · split
    · simp
    · rename_i artifact _
      intro h
      cases hfixture : artifact.toFixture <;> rw [hfixture] at h <;> cases h

/-- A file that is read as an artifact is never one that was not found. -/
theorem readArtifact_ne_notFound (t : FileTree) (cwd : Names) (path : Path) (name : List Char) :
    readArtifact t cwd path ≠ .error (.notFound name) := by
  rw [readArtifact]
  split
  · simp
  · exact ofContent_ne_notFound _ name

/-! ## Builtin fixtures -/

/-- Neither the tree nor the configuration is looked at. -/
theorem exists_of_isBuiltin (h : IsBuiltin name) :
    ∃ f, Fixture.builtin? (String.ofList name) = some f ∧ f.name = String.ofList name ∧
      ∀ t cwd c, resolve t cwd c ⟨some name, none⟩ = .ok f := by
  obtain ⟨f, hf⟩ := Option.isSome_iff_exists.1 (Fixture.builtin?_isSome_iff.2 h)
  refine ⟨f, hf, Fixture.name_of_builtin? hf, fun t cwd c => ?_⟩
  simp only [resolve, Option.getD_some, hf]

/-! ## Names -/

theorem resolve_meant (t : FileTree) (cwd : Names) (c : Config) (s : FixtureSource)
    (h : s.file = none) : resolve t cwd c s = resolve t cwd c ⟨some (s.meant c), none⟩ := by
  obtain ⟨given, file⟩ := s
  cases h
  rfl

theorem readNamed_eq_notFound_iff {asked : List Char} :
    readNamed t cwd c asked = .error (.notFound name) ↔
      asked = name ∧ t.entryAt cwd (c.fixturePath name) = .error .notFound := by
  cases hentry : t.entryAt cwd (c.fixturePath asked) with
  | ok entry =>
    rw [readNamed_of_entry hentry]
    constructor
    · exact fun h => absurd h (readArtifact_ne_notFound _ _ _ name)
    · rintro ⟨rfl, hnone⟩
      rw [hentry] at hnone
      cases hnone
  | error e =>
    rw [readNamed_of_error hentry]
    by_cases he : e = .notFound
    · rw [if_pos he]
      constructor
      · intro h
        cases h
        exact ⟨rfl, he ▸ hentry⟩
      · rintro ⟨rfl, -⟩
        rfl
    · rw [if_neg he]
      constructor
      · simp
      · rintro ⟨rfl, hnone⟩
        rw [hentry] at hnone
        exact absurd (Except.error.inj hnone) he

theorem resolve_eq_notFound_iff :
    resolve t cwd c s = .error (.notFound name) ↔
      s.file = none ∧ s.meant c = name ∧ ¬ IsBuiltin name ∧
        t.entryAt cwd (c.fixturePath name) = .error .notFound := by
  cases hfile : s.file with
  | some path =>
    have hresolve : resolve t cwd c s = readArtifact t cwd path := by
      simp only [resolve, hfile]
    rw [hresolve]
    constructor
    · exact fun h => absurd h (readArtifact_ne_notFound _ _ _ name)
    · rintro ⟨hnone, -⟩
      cases hnone
  | none =>
    rw [resolve_meant t cwd c s hfile]
    by_cases hbuiltin : IsBuiltin (s.meant c)
    · obtain ⟨f, -, -, hf⟩ := exists_of_isBuiltin hbuiltin
      rw [hf]
      constructor
      · simp
      · rintro ⟨-, rfl, hnot, -⟩
        exact absurd hbuiltin hnot
    · rw [resolve_of_not_builtin hbuiltin, readNamed_eq_notFound_iff]
      constructor
      · rintro ⟨rfl, hnone⟩
        exact ⟨rfl, rfl, hbuiltin, hnone⟩
      · rintro ⟨-, rfl, -, hnone⟩
        exact ⟨rfl, hnone⟩

/-- With a file, nothing counts but what is read there. Without one, a builtin name gives the builtin
fixture, whatever is in the tree and wherever the fixtures directory is; to name none is to name the
default; any other name whose path leads somewhere gives what the file at the path gives, fixture or
fault. A name is not found exactly where there is no file, it is not builtin, and looking at its path
finds no entry. Where looking fails otherwise, that is the fault. -/
theorem resolution_order (t : FileTree) (cwd : Names) (c : Config) :
    (∀ path given t' cwd' c' given', t.read cwd path = t'.read cwd' path →
      resolve t cwd c ⟨given, some path⟩ = resolve t' cwd' c' ⟨given', some path⟩) ∧
    (∀ name, IsBuiltin name →
      ∃ f, Fixture.builtin? (String.ofList name) = some f ∧ f.name = String.ofList name ∧
        ∀ t' cwd' c', resolve t' cwd' c' ⟨some name, none⟩ = .ok f) ∧
    resolve t cwd c ⟨none, none⟩ = resolve t cwd c ⟨some c.defaultFixture, none⟩ ∧
    (∀ name, ¬ IsBuiltin name → IsThere t cwd c name →
      resolve t cwd c ⟨some name, none⟩ = resolve t cwd c (ofFile (c.fixturePath name))) ∧
    (∀ s name, resolve t cwd c s = .error (.notFound name) ↔
      s.file = none ∧ s.meant c = name ∧ ¬ IsBuiltin name ∧
        t.entryAt cwd (c.fixturePath name) = .error .notFound) ∧
    ∀ name e, ¬ IsBuiltin name → t.entryAt cwd (c.fixturePath name) = .error e → e ≠ .notFound →
      resolve t cwd c ⟨some name, none⟩ = .error (.unknown e) := by
  refine ⟨fun path given t' cwd' c' given' h => resolve_file h, fun name h => exists_of_isBuiltin h,
    rfl, fun name hbuiltin hthere => ?_, fun s name => resolve_eq_notFound_iff,
    fun name e hbuiltin hentry he => ?_⟩
  · obtain ⟨entry, hentry⟩ := hthere
    rw [resolve_of_not_builtin hbuiltin, readNamed_of_entry hentry, resolve_ofFile]
  · rw [resolve_of_not_builtin hbuiltin, readNamed_of_error hentry, if_neg he]

/-- A fixtures directory with a file that has the name of the builtin fixture. -/
def shadowTree : FileTree :=
  Config.insideTree.put ["fixtures".toList, "schnorr_verify.json".toList]
    (.file (Fixture.sample "sample" Field.zero).saved)

theorem shadow_tree_resolved :
    shadowTree.read [] (Config.default.fixturePath "schnorr_verify".toList) =
        .ok (Fixture.sample "sample" Field.zero).saved ∧
      (∃ f, f.name = "schnorr_verify" ∧
        resolve shadowTree [] .default ⟨some "schnorr_verify".toList, none⟩ = .ok f) ∧
      resolve shadowTree [] .default ⟨some "plain".toList, none⟩ =
        resolve shadowTree [] .default (ofFile (Config.default.fixturePath "plain".toList)) ∧
      resolve shadowTree [] .default ⟨some "absent".toList, none⟩ =
        .error (.notFound "absent".toList) := by
  obtain ⟨-, hbuiltin, -, hnamed, hmissing, -⟩ := resolution_order shadowTree [] .default
  obtain ⟨f, -, hname, hresolve⟩ := hbuiltin "schnorr_verify".toList (by decide)
  refine ⟨rfl, ⟨f, hname, hresolve _ _ _⟩, hnamed _ (by decide) ⟨_, rfl⟩, ?_⟩
  exact (hmissing _ _).2 ⟨rfl, rfl, by decide, rfl⟩

/-- A file where the fixtures directory should be. -/
def blockedTree : FileTree :=
  FileTree.empty.put [Config.default.fixturesDir.chars] (.file [])

/-- A path that leads to no entry is not enough for a name not to be found. -/
theorem blocked_name_unknown :
    ¬ (resolve blockedTree [] .default ⟨some "absent".toList, none⟩ =
        .error (.notFound "absent".toList) ↔
      ((⟨some "absent".toList, none⟩ : FixtureSource).file = none ∧
        ¬ IsBuiltin "absent".toList ∧ ¬ IsThere blockedTree [] .default "absent".toList)) := by
  have hentry : blockedTree.entryAt [] (Config.default.fixturePath "absent".toList) =
      .error .notDirectory := rfl
  intro h
  have hfault := h.2 ⟨rfl, by decide, fun ⟨entry, hok⟩ => by rw [hentry] at hok; cases hok⟩
  rw [resolve_eq_notFound_iff, hentry] at hfault
  cases hfault.2.2.2

end FixtureSource

end CircuitFixtures
