import CircuitFixtures.Proofs.Files.Below
import CircuitFixtures.Proofs.Fixture.Source

/-!
# Where named fixtures are looked for

The file of a name is inside the fixtures directory, whichever that is, exactly when the name stays
below the directory (`Config.StaysBelow`): it does not start at the root, and on the way to its last
segment it goes above the directory nowhere. It is enough that it has no slash
(`Config.staysBelow_of_not_mem`). A name that does not stay below is followed all the same.
`Config.named_fixture_stays` has both, and what a run without a file can read at all.
-/

namespace CircuitFixtures

/-! ## What a name decides -/

namespace FixtureSource

variable {t t' : FileTree} {cwd : Names} {c : Config} {path : Path} {name : List Char}

theorem readArtifact_congr (h : t.entryAt cwd path = t'.entryAt cwd path) :
    readArtifact t cwd path = readArtifact t' cwd path := by
  rw [readArtifact, readArtifact, FileTree.read, FileTree.read, h]

/-- Where the path of a name leads to an entry, this is read. -/
theorem readNamed_of_entry {entry : Entry} (h : t.entryAt cwd (c.fixturePath name) = .ok entry) :
    readNamed t cwd c name = readArtifact t cwd (c.fixturePath name) := by
  rw [readNamed, FileTree.pathExists, h]

/-- Where it leads to none, the fault says why. -/
theorem readNamed_of_error {e : FileFault} (h : t.entryAt cwd (c.fixturePath name) = .error e) :
    readNamed t cwd c name = .error (if e = .notFound then .notFound name else .unknown e) := by
  rw [readNamed, FileTree.pathExists, h]
  cases e <;> rfl

/-- Of the tree only the entry at the path of the name is looked at. -/
theorem readNamed_congr (h : t.entryAt cwd (c.fixturePath name) = t'.entryAt cwd (c.fixturePath name)) :
    readNamed t cwd c name = readNamed t' cwd c name := by
  rw [readNamed, readNamed, FileTree.pathExists, FileTree.pathExists, h, readArtifact_congr h]

theorem resolve_congr {given : Option (List Char)}
    (h : t.entryAt cwd (c.fixturePath (given.getD c.defaultFixture)) =
      t'.entryAt cwd (c.fixturePath (given.getD c.defaultFixture))) :
    resolve t cwd c ⟨given, none⟩ = resolve t' cwd c ⟨given, none⟩ := by
  simp only [resolve, readNamed_congr h]

/-- What is not builtin comes from a file. -/
theorem file_of_resolve {given : Option (List Char)} {f : Fixture}
    (h : resolve t cwd c ⟨given, none⟩ = .ok f) :
    Fixture.builtin? (String.ofList (given.getD c.defaultFixture)) = some f ∨
      ∃ names content, t.locate cwd (c.fixturePath (given.getD c.defaultFixture)) = .ok names ∧
        t.find? names = some (.file content) := by
  simp only [resolve] at h
  split at h
  · rename_i hbuiltin
    cases h
    exact .inl hbuiltin
  · right
    rw [readNamed] at h
    split at h
    · cases h
    · rw [readArtifact, FileTree.read, FileTree.entryAt] at h
      cases hlocate : t.locate cwd (c.fixturePath (given.getD c.defaultFixture)) with
      | error e =>
        rw [hlocate] at h
        cases h
      | ok names =>
        rw [hlocate] at h
        cases hfind : t.find? names with
        | none => simp [hfind] at h
        | some entry =>
          cases entry with
          | directory => simp [hfind] at h
          | file content => exact ⟨names, content, rfl, hfind⟩
    · cases h

end FixtureSource

/-! ## Names that stay below the directory -/

namespace Config

variable {name : List Char}

/-- The ending of the files of fixtures. -/
def ending : List Char := ".json".toList

/-- The name does not start at the root, and its segments but the last go above the directory
nowhere. -/
def StaysBelow (name : List Char) : Prop :=
  name.head? ≠ some '/' ∧ Path.depth 0 (Path.split name).dropLast ≠ none

/-- A segment with the ending is a name, whatever it was before. -/
theorem depthBehind_ending (n : Nat) (s : Path.Segment) :
    Path.depthBehind n (s ++ ending) = some (n + 1) := by
  have hlength : 5 ≤ (s ++ ending).length := by
    rw [List.length_append]
    exact Nat.le_add_left 5 s.length
  have hshort {r : Path.Segment} (hr : r.length < 5) : s ++ ending ≠ r := by
    rintro rfl
    omega
  refine Path.depthBehind_name ?_ (hshort (by decide)) n
  rw [Path.isIdle, Bool.or_eq_false_iff, beq_eq_false_iff_ne, beq_eq_false_iff_ne]
  exact ⟨hshort (by decide), hshort (by decide)⟩

theorem below_iff_staysBelow : Path.Below ⟨name ++ ending⟩ ↔ StaysBelow name := by
  have hending : '/' ∉ ending := by decide
  obtain ⟨before, last, hname, hfile⟩ : ∃ before last, Path.split name = before ++ [last] ∧
      Path.split (name ++ ending) = before ++ [last ++ ending] := Path.split_append hending
  have habsolute : (⟨name ++ ending⟩ : Path).isAbsolute = false ↔ name.head? ≠ some '/' := by
    cases name with
    | nil => decide
    | cons c cs => simp [Path.isAbsolute]
  have hdepth : Path.depth 0 (Path.split (name ++ ending)) =
      (Path.depth 0 before).map (· + 1) := by
    rw [hfile, Path.depth_append]
    cases Path.depth 0 before with
    | none => rfl
    | some n => simp [Path.depth, depthBehind_ending]
  rw [Path.Below, StaysBelow, habsolute, Path.segments, hdepth, hname, List.dropLast_concat]
  cases Path.depth 0 before <;> simp

/-- A name without slashes stays below the directory. -/
theorem staysBelow_of_not_mem (h : '/' ∉ name) : StaysBelow name := by
  constructor
  · intro hhead
    exact h (List.mem_of_mem_head? hhead)
  · rw [Path.split_of_not_mem h]
    nofun

/-- The file of a name is inside every fixtures directory exactly when the name stays below it. Then
what its path leads to is under the fixtures directory in the tree, and a source of that name without
a file is builtin or read from there. Whatever the name is, nothing in the tree but the entry at the
path decides. -/
theorem named_fixture_stays (name : List Char) :
    ((∀ c : Config, c.fixturesDir.Inside (c.fixturePath name)) ↔ StaysBelow name) ∧
    (StaysBelow name → ∀ (t : FileTree) cwd (c : Config) names,
      t.locate cwd (c.fixturePath name) = .ok names →
        ∃ d rest, t.follow (FileTree.start cwd c.fixturesDir) c.fixturesDir.segments = .ok d ∧
          rest ≠ [] ∧ names = d ++ rest) ∧
    (StaysBelow name → ∀ (t : FileTree) cwd (c : Config) given f,
      given.getD c.defaultFixture = name → FixtureSource.resolve t cwd c ⟨given, none⟩ = .ok f →
        Fixture.builtin? (String.ofList name) = some f ∨
          ∃ d rest content,
            t.follow (FileTree.start cwd c.fixturesDir) c.fixturesDir.segments = .ok d ∧
              rest ≠ [] ∧ t.locate cwd (c.fixturePath name) = .ok (d ++ rest) ∧
              t.find? (d ++ rest) = some (.file content)) ∧
    ∀ (t t' : FileTree) cwd (c : Config) given, given.getD c.defaultFixture = name →
      t.entryAt cwd (c.fixturePath name) = t'.entryAt cwd (c.fixturePath name) →
        FixtureSource.resolve t cwd c ⟨given, none⟩ =
          FixtureSource.resolve t' cwd c ⟨given, none⟩ := by
  refine ⟨?_, fun hname t cwd c names hlocate => ?_, fun hname t cwd c given f hgiven hresolve => ?_,
    fun t t' cwd c given hgiven h => ?_⟩
  · rw [← below_iff_staysBelow, ← Path.forall_inside_join_iff]
    constructor
    · exact fun h dir => h { default with fixturesDir := dir }
    · exact fun h c => h c.fixturesDir
  · exact FileTree.locate_join_of_below (below_iff_staysBelow.2 hname) hlocate
  · subst hgiven
    rcases FixtureSource.file_of_resolve hresolve with hbuiltin | ⟨names, content, hlocate, hfile⟩
    · exact .inl hbuiltin
    · obtain ⟨d, rest, hdir, hrest, rfl⟩ :=
        FileTree.locate_join_of_below (below_iff_staysBelow.2 hname) hlocate
      exact .inr ⟨d, rest, content, hdir, hrest, hlocate, hfile⟩
  · subst hgiven
    exact FixtureSource.resolve_congr h

/-- A fixture beside the empty fixtures directory. -/
def besideTree : FileTree :=
  (FileTree.empty.put ["fixtures".toList] .directory).put ["secret.json".toList]
    (.file (Fixture.sample "sample" Field.zero).saved)

/-- A fixture in the fixtures directory. -/
def insideTree : FileTree :=
  (FileTree.empty.put ["fixtures".toList] .directory).put ["fixtures".toList, "plain.json".toList]
    (.file (Fixture.sample "sample" Field.zero).saved)

theorem resolve_named {t : FileTree} {c : Config} {f : Fixture}
    (hbuiltin : Fixture.builtin? (String.ofList name) = none)
    (h : t.read [] (c.fixturePath name) = .ok f.saved) :
    FixtureSource.resolve t [] c ⟨some name, none⟩ = .ok f := by
  have hexists : t.pathExists [] (c.fixturePath name) = .ok true := by
    rw [FileTree.read] at h
    rw [FileTree.pathExists]
    split at h
    · cases h
    · cases h
    · rename_i hentry
      rw [hentry]
  simp only [FixtureSource.resolve, Option.getD_some, hbuiltin, FixtureSource.readNamed, hexists,
    FixtureSource.readArtifact_saved h]

theorem plain_fixture_stays :
    default.fixturesDir.Inside (default.fixturePath "plain".toList) ∧
      ∃ d rest content,
        insideTree.follow [] default.fixturesDir.segments = .ok d ∧ rest ≠ [] ∧
          insideTree.locate [] (default.fixturePath "plain".toList) = .ok (d ++ rest) ∧
          insideTree.find? (d ++ rest) = some (.file content) := by
  have hname : StaysBelow "plain".toList := staysBelow_of_not_mem (by decide)
  have hresolve : FixtureSource.resolve insideTree [] default ⟨some "plain".toList, none⟩ =
      .ok (Fixture.sample "sample" Field.zero) := resolve_named (by decide) rfl
  obtain ⟨hinside, -, hread, -⟩ := named_fixture_stays "plain".toList
  refine ⟨hinside.2 hname default, ?_⟩
  rcases hread hname insideTree [] default (some "plain".toList) _ rfl hresolve with hbuiltin | hfile
  · cases hbuiltin
  · exact hfile

/-- A name that goes up is looked for, and read, beside the fixtures directory. -/
theorem upward_name_escapes :
    ¬ default.fixturesDir.Inside (default.fixturePath "../secret".toList) ∧
      besideTree.namesIn ["fixtures".toList] = [] ∧
      FixtureSource.resolve besideTree [] default ⟨some "../secret".toList, none⟩ =
        .ok (Fixture.sample "sample" Field.zero) := by
  refine ⟨?_, by decide, resolve_named (by decide) rfl⟩
  rintro ⟨-, rest, -, -, hclean⟩
  have hpath : (default.fixturePath "../secret".toList).cleanSegments = ["secret.json".toList] := by
    decide
  have hdir : default.fixturesDir.cleanSegments = ["fixtures".toList] := by decide
  rw [hpath, hdir] at hclean
  exact absurd (List.cons.inj hclean).1 (by decide)

end Config

end CircuitFixtures
