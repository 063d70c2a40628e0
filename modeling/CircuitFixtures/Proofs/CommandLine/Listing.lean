import CircuitFixtures.CommandLine.Run
import CircuitFixtures.Proofs.Files.Names
import CircuitFixtures.Proofs.Fixture.Location
import CircuitFixtures.Proofs.Text.Order

/-!
# The list of the fixtures directory

The list takes the names of files apart, and a fixture that is asked for by its name is looked for
under a name that is put together. `fixtureName?_eq_some_iff` says that the one undoes the other, so
what is listed can be read (`Run.listed_names_resolve`), unless its path is too long.
-/

namespace CircuitFixtures

/-! ## The names that are listed -/

section Names

variable {file n : List Char} {files : List (List Char)}

theorem fixtureName?_eq_some_iff :
    fixtureName? file = some n ↔ n ≠ [] ∧ file = n ++ Config.ending := by
  rw [fixtureName?]
  constructor
  · intro h
    split at h
    · rename_i hextension
      cases h
      exact Path.eq_of_extension? hextension
    · cases h
  · rintro ⟨hn, rfl⟩
    have hcut : Path.stemAndExtension (n ++ Config.ending) = (n, some "json".toList) :=
      Path.stemAndExtension_append hn (by decide) (by decide)
    rw [Path.extension?, Path.stem, hcut]
    exact if_pos rfl

theorem mem_fixtureNames_iff :
    n ∈ fixtureNames files ↔ n ≠ [] ∧ n ++ Config.ending ∈ files := by
  simp only [fixtureNames, List.mem_mergeSort, List.mem_filterMap, fixtureName?_eq_some_iff]
  constructor
  · rintro ⟨file, hmem, hn, rfl⟩
    exact ⟨hn, hmem⟩
  · rintro ⟨hn, hmem⟩
    exact ⟨_, hmem, hn, rfl⟩

theorem nodup_fixtureNames (h : files.Nodup) : (fixtureNames files).Nodup := by
  rw [fixtureNames, (List.mergeSort_perm _ _).nodup_iff]
  refine List.Pairwise.filterMap _ ?_ h
  intro file file' hne n hn n' hn' heq
  rw [fixtureName?_eq_some_iff] at hn hn'
  exact hne (by rw [hn.2, hn'.2, heq])

theorem sorted_fixtureNames (files : List (List Char)) :
    (fixtureNames files).Pairwise (fun m n => ¬ n < m) := by
  have hle {m n : List Char} : (!decide (n < m)) = true ↔ ¬ n < m := by
    rw [Bool.not_eq_true', decide_eq_false_iff_not]
  refine (List.pairwise_mergeSort ?_ ?_ _).imp hle.1
  · intro k m n hkm hmn
    have hkm' := List.not_lt.1 (hle.1 hkm)
    have hmn' := List.not_lt.1 (hle.1 hmn)
    exact hle.2 (List.not_lt.2 (List.le_trans hkm' hmn'))
  · intro m n
    rw [Bool.or_eq_true, hle, hle, List.not_lt, List.not_lt]
    exact List.le_total m n

/-- The names stand in the order of their bytes, each once. -/
theorem ascending_fixtureNames (h : files.Nodup) :
    (fixtureNames files).Pairwise (fun m n => Utf8.encode m < Utf8.encode n) := by
  refine ((sorted_fixtureNames files).and (nodup_fixtureNames h)).imp fun {m n} hmn => ?_
  have hlt : m < n := (List.le_iff_lt_or_eq.1 (List.not_lt.1 hmn.1)).resolve_right hmn.2
  exact Utf8.encode_lt hlt

end Names

/-! ## Reading what is listed -/

namespace FixtureSource

variable {t : FileTree} {cwd names : Names} {c : Config} {n : List Char} {entry : Entry}

/-- What an entry gives that is read as an artifact at a path. -/
def ofEntry (path : Path) : Entry → Except SourceFault Fixture
  | .file content => ofContent path content
  | .directory => .error (.unreadable path .isDirectory)

theorem readNamed_of_locate (hlocate : t.locate cwd (c.fixturePath n) = .ok names)
    (hentry : t.find? names = some entry) :
    readNamed t cwd c n = ofEntry (c.fixturePath n) entry := by
  have hat : t.entryAt cwd (c.fixturePath n) = .ok entry := by
    rw [FileTree.entryAt, hlocate]
    simp only [hentry]
  rw [readNamed_of_entry hat, readArtifact, FileTree.read, hat]
  cases entry <;> rfl

theorem readNamed_of_nameTooLong (h : t.locate cwd (c.fixturePath n) = .error .nameTooLong) :
    readNamed t cwd c n = .error (.unknown .nameTooLong) := by
  have hat : t.entryAt cwd (c.fixturePath n) = .error .nameTooLong := by
    rw [FileTree.entryAt, h]
  rw [readNamed_of_error hat, if_neg (by decide)]

theorem resolve_of_not_builtin (h : String.ofList n ∉ Fixture.builtinNames) :
    resolve t cwd c ⟨some n, none⟩ = readNamed t cwd c n := by
  have hbuiltin : Fixture.builtin? (String.ofList n) = none := by
    rw [← Fixture.builtin?_isSome_iff] at h
    simpa using h
  simp only [resolve, Option.getD_some, hbuiltin]

end FixtureSource

namespace Run

variable {p : Place} {c : Config} {t : FileTree} {d : Names} {n : List Char}

theorem list_eq (hdir : t.locate p.names c.fixturesDir = .ok d)
    (hdirectory : t.find? d = some .directory) :
    list p c t = .done t (linesText
      (builtinLines c.fixturesDir ++ nameLines (fixtureNames (t.namesIn d)))) := by
  have hexists : t.pathExists p.names c.fixturesDir = .ok true := by
    rw [FileTree.pathExists, FileTree.entryAt, hdir]
    simp only [hdirectory]
  have hlist : t.list p.names c.fixturesDir = .ok (t.namesIn d) := by
    rw [FileTree.list, hdir]
    simp only [hdirectory]
  simp only [list, hexists, hlist]

/-- The list of a directory shows, in the order of their bytes and each once, the names that are not
empty and whose files are in the directory. What is listed and is not builtin is read from its own
entry, unless its path is too long. -/
theorem listed_names_resolve (p : Place) (c : Config) (t : FileTree) (d : Names)
    (hdir : t.locate p.names c.fixturesDir = .ok d) (hdirectory : t.find? d = some .directory) :
    ∃ ns : List (List Char),
      list p c t = .done t (linesText (builtinLines c.fixturesDir ++
        if ns = [] then ["  (none)"] else ns.map (fun n => "  " ++ String.ofList n))) ∧
      ns.Pairwise (fun m n => Utf8.encode m < Utf8.encode n) ∧
      (∀ n, n ∈ ns ↔ n ≠ [] ∧ ∃ entry, t.find? (d ++ [n ++ ".json".toList]) = some entry) ∧
      ∀ n ∈ ns, String.ofList n ∉ Fixture.builtinNames →
        ∃ entry, t.find? (d ++ [n ++ ".json".toList]) = some entry ∧
          FixtureSource.resolve t p.names c ⟨some n, none⟩ =
            if FileTree.pathLimit ≤ (c.fixturePath n).toString.utf8ByteSize
            then .error (.unknown .nameTooLong)
            else FixtureSource.ofEntry (c.fixturePath n) entry := by
  have hmem (n : List Char) : n ∈ fixtureNames (t.namesIn d) ↔
      n ≠ [] ∧ ∃ entry, t.find? (d ++ [n ++ Config.ending]) = some entry := by
    rw [mem_fixtureNames_iff, FileTree.mem_namesIn_iff]
  refine ⟨fixtureNames (t.namesIn d), ?_, ascending_fixtureNames (t.nodup_namesIn d), hmem,
    fun n hn hbuiltin => ?_⟩
  · rw [list_eq hdir hdirectory, nameLines]
    simp only [List.isEmpty_iff]
  · obtain ⟨-, entry, hentry⟩ := (hmem n).1 hn
    refine ⟨entry, hentry, ?_⟩
    have hlocate : t.locate p.names (c.fixturePath n) = if FileTree.pathLimit ≤
        (c.fixturePath n).toString.utf8ByteSize then .error .nameTooLong
        else .ok (d ++ [n ++ Config.ending]) :=
      FileTree.locate_join hdir hdirectory
        (FileTree.fileName_of_mem_namesIn (mem_fixtureNames_iff.1 hn).2)
        (hentry ▸ Option.some_ne_none entry)
    rw [FixtureSource.resolve_of_not_builtin hbuiltin]
    split
    · rename_i hlong
      rw [if_pos hlong] at hlocate
      exact FixtureSource.readNamed_of_nameTooLong hlocate
    · rename_i hshort
      rw [if_neg hshort] at hlocate
      exact FixtureSource.readNamed_of_locate hlocate hentry

theorem plain_listed_and_resolved :
    ∃ ns, list ⟨[], []⟩ .default Config.insideTree = .done Config.insideTree (linesText
        (builtinLines Config.default.fixturesDir ++
          if ns = [] then ["  (none)"] else ns.map (fun n => "  " ++ String.ofList n))) ∧
      "plain".toList ∈ ns ∧
      FixtureSource.resolve Config.insideTree [] .default ⟨some "plain".toList, none⟩ =
        .ok (Fixture.sample "sample" Field.zero) := by
  have hdir : Config.insideTree.locate [] Config.default.fixturesDir = .ok ["fixtures".toList] := rfl
  obtain ⟨ns, hlist, -, hmem, hread⟩ :=
    listed_names_resolve ⟨[], []⟩ .default Config.insideTree ["fixtures".toList] hdir rfl
  have hfile : Config.insideTree.find? (["fixtures".toList] ++ ["plain".toList ++ ".json".toList]) =
      some (.file (Fixture.sample "sample" Field.zero).saved) := rfl
  have hplain : "plain".toList ∈ ns := (hmem _).2 ⟨by decide, _, hfile⟩
  refine ⟨ns, hlist, hplain, ?_⟩
  obtain ⟨entry, hentry, hresolve⟩ := hread _ hplain (by decide)
  obtain rfl := Option.some.inj (hentry.symm.trans hfile)
  rw [hresolve, if_neg (by decide)]
  exact FixtureSource.ofContent_saved _ (Fixture.sample "sample" Field.zero)

/-! ## A path that is too long -/

/-- The root, written with many slashes. -/
def slashes (n : Nat) : Path :=
  ⟨List.replicate n '/'⟩

theorem segments_slashes (n : Nat) : (slashes n).segments = List.replicate (n + 1) [] := by
  rw [Path.segments, slashes]
  induction n with
  | zero => rfl
  | succ n ih => rw [List.replicate_succ, Path.split, if_pos rfl, ih, ← List.replicate_succ]

theorem locate_slashes {m : Nat} (cwd : Names) (h : m + 1 < FileTree.pathLimit) :
    t.locate cwd (slashes (m + 1)) = .ok [] := by
  have hsize : (slashes (m + 1)).toString.utf8ByteSize = m + 1 := by
    rw [Path.toString, slashes, Utf8.utf8ByteSize_ofList, Utf8.size_replicate]
    exact Nat.mul_one _
  have hfault : FileTree.pathFault? (slashes (m + 1)) = none := by
    rw [FileTree.pathFault?, hsize, if_neg (Nat.not_le.2 h)]
    simp [slashes, List.replicate_succ]
  refine FileTree.locate_eq_ok_iff.2 ⟨hfault, ?_⟩
  rw [segments_slashes]
  exact FileTree.follow_slashes rfl

/-- A fixture in the root. -/
def rootTree : FileTree :=
  FileTree.empty.put ["plain.json".toList] (.file (Fixture.sample "sample" Field.zero).saved)

/-- The configuration with the root, written with many slashes, as the fixtures directory. -/
def slashed : Config :=
  { Config.default with fixturesDir := slashes 4090 }

/-- A directory can be listed though its path has no room for a name behind it. What is listed cannot
be read then. -/
theorem listed_name_too_long :
    list ⟨[], []⟩ slashed rootTree =
        .done rootTree (linesText (builtinLines slashed.fixturesDir ++ ["  plain"])) ∧
      "plain" ∉ Fixture.builtinNames ∧
      rootTree.find? ["plain.json".toList] =
        some (.file (Fixture.sample "sample" Field.zero).saved) ∧
      FixtureSource.ofEntry (slashed.fixturePath "plain".toList)
          (.file (Fixture.sample "sample" Field.zero).saved) =
        .ok (Fixture.sample "sample" Field.zero) ∧
      FixtureSource.resolve rootTree [] slashed ⟨some "plain".toList, none⟩ =
        .error (.unknown .nameTooLong) := by
  have hdir : rootTree.locate [] slashed.fixturesDir = .ok [] := locate_slashes [] (by decide)
  have hname : FileName ("plain".toList ++ Config.ending) := by decide
  have hlong : FileTree.pathLimit ≤
      (slashed.fixturesDir.join ⟨"plain".toList ++ Config.ending⟩).toString.utf8ByteSize :=
    hname.le_size_join (by rw [slashed, slashes, List.length_replicate]; decide)
  have hcontent := FixtureSource.ofContent_saved (slashed.fixturePath "plain".toList)
    (Fixture.sample "sample" Field.zero)
  refine ⟨?_, by decide, rfl, hcontent, ?_⟩
  · have hshown : fixtureName? "plain.json".toList = some "plain".toList :=
      fixtureName?_eq_some_iff.2 ⟨by decide, rfl⟩
    have hnames : fixtureNames (rootTree.namesIn []) = ["plain".toList] := by
      rw [show rootTree.namesIn [] = ["plain.json".toList] from rfl, fixtureNames,
        List.filterMap_cons_some hshown, List.filterMap_nil, List.mergeSort_singleton]
    have hlines : nameLines ["plain".toList] = ["  plain"] := rfl
    have hlist := list_eq (p := ⟨[], []⟩) hdir rfl
    rw [hlist, hnames, hlines]
  · have hlocate := FileTree.locate_join hdir rfl hname (by decide)
    rw [if_pos hlong] at hlocate
    rw [FixtureSource.resolve_of_not_builtin (by decide)]
    exact FixtureSource.readNamed_of_nameTooLong hlocate

end Run

end CircuitFixtures
