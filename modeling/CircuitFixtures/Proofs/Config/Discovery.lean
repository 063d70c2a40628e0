import CircuitFixtures.Config
import CircuitFixtures.Proofs.CommandLine.Listing
import CircuitFixtures.Proofs.Files.Components

/-!
# Where the configuration file is

Upwards from a directory, the first file found is the one in the deepest directory that has it
(`FileTree.findUpward_eq_some_iff`); what else is there under the name is passed over. A path that
is given is taken as it is, or cleaned behind the working directory. `configPath_discovers` has all
of it. A file is not found where the path of its directory leaves no room for the name
(`configPath_too_long`).
-/

namespace CircuitFixtures

/-- A name that is one component of a path and no step. -/
structure PlainName (name : Path.Segment) : Prop extends Path.IsName name where
  noSlash : '/' ∉ name

namespace PlainName

variable {name : Path.Segment} {p : Path}

theorem isAbsolute_eq (h : PlainName name) : Path.isAbsolute ⟨name⟩ = false :=
  Path.isAbsolute_of_not_mem h.noSlash

theorem segments_eq (h : PlainName name) : Path.segments ⟨name⟩ = [name] :=
  Path.split_of_not_mem h.noSlash

/-- A name behind a directory is the last of the clean segments. -/
theorem cleanSegments_join (h : PlainName name) (p : Path) :
    (p.join ⟨name⟩).cleanSegments = p.cleanSegments ++ [name] := by
  rw [Path.cleanSegments_join h.isAbsolute_eq, h.segments_eq, List.foldl_cons,
    Path.push_name h.toIsName, List.foldl_nil, List.reverse_cons, List.reverse_reverse]

end PlainName

namespace FileTree

variable {t : FileTree} {cwd d names : Names} {name : Path.Segment} {p q start : Path}

/-! ## Directories that have a file -/

/-- The path leads to a directory that has a regular file of the name. -/
def Holds (t : FileTree) (cwd : Names) (p : Path) (name : Path.Segment) : Prop :=
  ∃ d content, t.locate cwd p = .ok d ∧ t.find? d = some .directory ∧
    t.find? (d ++ [name]) = some (.file content)

/-- The path with the name behind it is short enough to be followed. -/
def HasRoom (p : Path) (name : Path.Segment) : Prop :=
  (p.join ⟨name⟩).toString.utf8ByteSize < pathLimit

theorem isFile_iff_find? : t.isFile cwd p = true ↔
    ∃ names content, t.locate cwd p = .ok names ∧ t.find? names = some (.file content) := by
  rw [isFile, entryAt]
  cases hlocate : t.locate cwd p with
  | error e => simp
  | ok names => cases hfind : t.find? names with
    | none => simp [hfind]
    | some entry => cases entry <;> simp [hfind]

theorem pathFault?_eq_none_iff : pathFault? p = none ↔
    '\x00' ∉ p.chars ∧ p.chars ≠ [] ∧ p.toString.utf8ByteSize < pathLimit := by
  by_cases hend : '\x00' ∈ p.chars
  · simp [pathFault?, hend]
  · by_cases hempty : p.chars = []
    · simp [pathFault?, hempty]
    · by_cases hlong : pathLimit ≤ p.toString.utf8ByteSize
      · simp [pathFault?, hend, hempty, hlong]
      · simp [pathFault?, hend, hempty, hlong, Nat.lt_of_not_le hlong]

/-- Where a path with a name behind it can be followed, the path can. -/
theorem pathFault?_of_join (hp : p.isAbsolute = true) (hname : PlainName name)
    (h : pathFault? (p.join ⟨name⟩) = none) : pathFault? p = none := by
  obtain ⟨hend, -, hroom⟩ := pathFault?_eq_none_iff.1 h
  obtain ⟨more, hmore⟩ : p.chars <+: (p.join ⟨name⟩).chars := by
    rw [Path.join, hname.isAbsolute_eq, if_neg Bool.false_ne_true]
    split <;> exact List.prefix_append _ _
  refine pathFault?_eq_none_iff.2 ⟨fun hmem => hend ?_, ?_, ?_⟩
  · rw [← hmore]
    exact List.mem_append_left more hmem
  · intro hnil
    rw [Path.isAbsolute, hnil] at hp
    cases hp
  · refine Nat.lt_of_le_of_lt ?_ hroom
    rw [Path.toString, Path.toString, Utf8.utf8ByteSize_ofList, Utf8.utf8ByteSize_ofList, ← hmore,
      Utf8.size_append]
    exact Nat.le_add_right _ _

/-- A name leads from a directory to an entry of this name only. -/
theorem locate_of_locate_join (hp : p.isAbsolute = true) (hname : PlainName name)
    (h : t.locate cwd (p.join ⟨name⟩) = .ok names) :
    ∃ d, t.locate cwd p = .ok d ∧ t.find? d = some .directory ∧ names = d ++ [name] := by
  obtain ⟨hfault, hfollow⟩ := locate_eq_ok_iff.1 h
  obtain ⟨before, hjoin, hbefore⟩ := Path.segments_join (p := p) hname.isAbsolute_eq
  rw [start, Path.isAbsolute_join_eq hname.isAbsolute_eq, ← start, hjoin, hname.segments_eq,
    follow_append_eq_ok_iff] at hfollow
  obtain ⟨d, hd, hlast⟩ := hfollow
  obtain ⟨hdirectory, next, hstep, hnext⟩ := follow_cons_eq_ok_iff.1 hlast
  cases hnext
  refine ⟨d, locate_eq_ok_iff.2 ⟨pathFault?_of_join hp hname hfault, ?_⟩, hdirectory, ?_⟩
  · rcases hbefore with hbefore | hbefore
    · rwa [hbefore]
    · rw [hbefore]
      exact follow_slash_eq_ok_iff.2 ⟨hd, hdirectory⟩
  · cases hstep with
    | stay hidle => rw [hname.notIdle] at hidle; cases hidle
    | up _ hup => exact absurd hup hname.notUp
    | down => rfl

/-- A file of the name is seen from a directory that holds one and has room for the name, and from
no other. -/
theorem isFile_join_iff (hp : p.isAbsolute = true) (hname : PlainName name) :
    t.isFile cwd (p.join ⟨name⟩) = true ↔ t.Holds cwd p name ∧ HasRoom p name := by
  rw [isFile_iff_find?]
  constructor
  · rintro ⟨names, content, hlocate, hfile⟩
    obtain ⟨d, hd, hdirectory, rfl⟩ := locate_of_locate_join hp hname hlocate
    have hroom := (pathFault?_eq_none_iff.1 (locate_eq_ok_iff.1 hlocate).1).2.2
    exact ⟨⟨d, content, hd, hdirectory, hfile⟩, hroom⟩
  · rintro ⟨⟨d, content, hd, hdirectory, hfile⟩, hroom⟩
    have hfileName : FileName name := fileName_of_mem_namesIn (mem_namesIn_iff.2 ⟨_, hfile⟩)
    have hlocate := locate_join hd hdirectory hfileName (hfile ▸ Option.some_ne_none _)
    rw [if_neg (Nat.not_le.2 hroom)] at hlocate
    exact ⟨_, content, hlocate, hfile⟩

/-! ## The deepest of them -/

/-- A file of the name can be read there. -/
def Offers (t : FileTree) (cwd : Names) (name : Path.Segment) (p : Path) : Prop :=
  t.Holds cwd p name ∧ HasRoom p name

theorem findUpward_eq (t : FileTree) (cwd : Names) (start name : Path) :
    t.findUpward cwd start name =
      (start.ancestors.find? (fun q => t.isFile cwd (q.join name))).map (·.join name) := by
  rw [findUpward, List.find?_map]
  rfl

theorem isFile_iff_offers (cwd : Names) (hstart : start.isAbsolute = true)
    (hname : PlainName name) : ∀ q ∈ start.ancestors,
      (t.isFile cwd (q.join ⟨name⟩) = true ↔ t.Offers cwd name q) :=
  fun _ hq => isFile_join_iff (Path.isAbsolute_of_mem_ancestors hstart hq) hname

theorem findUpward_eq_some_iff (hstart : start.isAbsolute = true)
    (hname : PlainName name) :
    t.findUpward cwd start ⟨name⟩ = some p ↔
      ∃ q ∈ start.ancestors, p = q.join ⟨name⟩ ∧ t.Offers cwd name q ∧
        ∀ r ∈ start.ancestors, t.Offers cwd name r → r.components <+: q.components := by
  have hoffers := isFile_iff_offers (t := t) cwd hstart hname
  rw [findUpward_eq, Option.map_eq_some_iff]
  constructor
  · rintro ⟨q, hq, rfl⟩
    obtain ⟨hmem, hfile, hdeepest⟩ := (Path.find?_ancestors_eq_some_iff hstart).1 hq
    exact ⟨q, hmem, rfl, (hoffers q hmem).1 hfile,
      fun r hr hoffer => hdeepest r hr ((hoffers r hr).2 hoffer)⟩
  · rintro ⟨q, hmem, rfl, hoffer, hdeepest⟩
    exact ⟨q, (Path.find?_ancestors_eq_some_iff hstart).2 ⟨hmem, (hoffers q hmem).2 hoffer,
      fun r hr hfile => hdeepest r hr ((hoffers r hr).1 hfile)⟩, rfl⟩

theorem findUpward_eq_none_iff (hstart : start.isAbsolute = true)
    (hname : PlainName name) :
    t.findUpward cwd start ⟨name⟩ = none ↔ ∀ q ∈ start.ancestors, ¬ t.Offers cwd name q := by
  rw [findUpward_eq, Option.map_eq_none_iff, List.find?_eq_none]
  exact forall₂_congr fun q hq => not_congr (isFile_iff_offers cwd hstart hname q hq)

end FileTree

/-! ## The path of the file -/

variable {t : FileTree} {names : Names} {cwd configDir given : Path} {name : Path.Segment}

theorem configPath_given (find : Path → Path → Option Path) (h : given.isAbsolute = true) :
    configPath find cwd configDir ⟨name⟩ (some given) = given := by
  rw [configPath.eq_def]
  exact if_pos h

theorem normalForm_configPath_given (find : Path → Path → Option Path)
    (hcwd : cwd.isAbsolute = true) (h : given.isAbsolute = false) :
    Path.NormalForm (cwd.join given) (configPath find cwd configDir ⟨name⟩ (some given)) := by
  have hclean : configPath find cwd configDir ⟨name⟩ (some given) = (cwd.join given).clean := by
    rw [configPath.eq_def]
    exact if_neg (by rw [h]; exact Bool.false_ne_true)
  rw [hclean]
  exact Path.normalForm_clean (Path.isAbsolute_join hcwd)

theorem configPath_of_findUpward {p : Path} (h : t.findUpward names cwd ⟨name⟩ = some p) :
    configPath (t.findUpward names) cwd configDir ⟨name⟩ none = p := by
  simp only [configPath, h]

theorem configPath_of_not_found (h : t.findUpward names cwd ⟨name⟩ = none) :
    configPath (t.findUpward names) cwd configDir ⟨name⟩ none = (configDir.join ⟨name⟩).clean := by
  simp only [configPath, h]

/-- Upwards from the working directory, whose components are taken away one by one from the end, the
file is found that is in the deepest directory with room for its name, and none is found where there
is no such directory. A path from the root that is given is taken as it is, whatever is found; any
other is brought to its normal form behind the working directory. Without one it is the file that is
found, else the normal form of the path in the user's configuration directory. -/
theorem configPath_discovers (names : Names) (hcwd : cwd.isAbsolute = true)
    (hdir : configDir.isAbsolute = true) (hname : PlainName name) :
    (cwd.ancestors.map Path.components = cwd.components.inits.reverse ∧
      ∀ q ∈ cwd.ancestors, q.isAbsolute = true ∧ q.chars <+: cwd.chars) ∧
    (∀ p, t.findUpward names cwd ⟨name⟩ = some p ↔
      ∃ q ∈ cwd.ancestors, p = q.join ⟨name⟩ ∧ t.Offers names name q ∧
        ∀ r ∈ cwd.ancestors, t.Offers names name r → r.components <+: q.components) ∧
    (t.findUpward names cwd ⟨name⟩ = none ↔ ∀ q ∈ cwd.ancestors, ¬ t.Offers names name q) ∧
    (∀ find given, given.isAbsolute = true →
      configPath find cwd configDir ⟨name⟩ (some given) = given) ∧
    (∀ find given, given.isAbsolute = false →
      Path.NormalForm (cwd.join given) (configPath find cwd configDir ⟨name⟩ (some given))) ∧
    (∀ p, t.findUpward names cwd ⟨name⟩ = some p →
      configPath (t.findUpward names) cwd configDir ⟨name⟩ none = p) ∧
    (t.findUpward names cwd ⟨name⟩ = none →
      Path.NormalForm (configDir.join ⟨name⟩)
          (configPath (t.findUpward names) cwd configDir ⟨name⟩ none) ∧
        (configPath (t.findUpward names) cwd configDir ⟨name⟩ none).components =
          configDir.cleanSegments ++ [name]) := by
  refine ⟨⟨Path.components_ancestors hcwd, fun q hq => ⟨Path.isAbsolute_of_mem_ancestors hcwd hq,
      Path.prefix_of_mem_ancestors hcwd hq⟩⟩,
    fun p => FileTree.findUpward_eq_some_iff hcwd hname,
    FileTree.findUpward_eq_none_iff hcwd hname,
    fun find given => configPath_given find,
    fun find given => normalForm_configPath_given find hcwd,
    fun p => configPath_of_findUpward, fun hnone => ?_⟩
  have habsolute : (configDir.join ⟨name⟩).isAbsolute = true := Path.isAbsolute_join hdir
  rw [configPath_of_not_found hnone, Path.components_clean habsolute, hname.cleanSegments_join]
  exact ⟨Path.normalForm_clean habsolute, rfl⟩

/-- A file in one directory, and a directory of its name in the one below. -/
def workTree : FileTree :=
  (((FileTree.empty.put ["work".toList] .directory).put
      ["work".toList, "conf.yaml".toList] (.file [])).put
      ["work".toList, "crates".toList] .directory).put
      ["work".toList, "crates".toList, "conf.yaml".toList] .directory

/-- The file is found above the directory of its name. -/
theorem workTree_discovered :
    (∃ q ∈ (Path.ofString "/work/crates").ancestors,
      Path.ofString "/work/conf.yaml" = q.join (.ofString "conf.yaml") ∧
        workTree.Offers [] "conf.yaml".toList q) ∧
      configPath (workTree.findUpward []) (.ofString "/work/crates") (.ofString "/home/me")
        (.ofString "conf.yaml") none = .ofString "/work/conf.yaml" ∧
      Path.NormalForm (.ofString "/work/crates/../other.yaml") (.ofString "/work/other.yaml") := by
  have hname : PlainName "conf.yaml".toList := ⟨⟨by decide, by decide⟩, by decide⟩
  have hfound : workTree.findUpward [] (.ofString "/work/crates") ⟨"conf.yaml".toList⟩ =
      some (.ofString "/work/conf.yaml") := by decide
  have hcwd : (Path.ofString "/work/crates").isAbsolute = true := by decide
  have hdir : (Path.ofString "/home/me").isAbsolute = true := by decide
  obtain ⟨-, hsome, -, -, hrelative, hpath, -⟩ :=
    configPath_discovers (t := workTree) [] hcwd hdir hname
  obtain ⟨q, hq, heq, hoffers, -⟩ := (hsome _).1 hfound
  exact ⟨⟨q, hq, heq, hoffers⟩, hpath _ hfound,
    hrelative (fun _ _ => none) (.ofString "../other.yaml") (by decide)⟩

theorem ancestors_slashes (n : Nat) : (Run.slashes (n + 1)).ancestors = [Run.slashes (n + 1)] := by
  have hcomponents : (Run.slashes (n + 1)).components = [] := by
    rw [Path.components, Run.segments_slashes]
    refine List.filter_eq_nil_iff.2 fun s hs => ?_
    rw [List.eq_of_mem_replicate hs]
    decide
  rcases Path.parents_cases (p := Run.slashes (n + 1)) rfl with ⟨-, hparents⟩ | ⟨q, s, -, hq, -⟩
  · rw [Path.ancestors, hparents]
  · rw [hcomponents] at hq
    simp at hq

/-- A directory can hold a file though its path has no room for the name. Then none is found. -/
theorem configPath_too_long :
    ¬ (Run.rootTree.findUpward [] (Run.slashes 4090) ⟨"plain.json".toList⟩ = none ↔
      ∀ q ∈ (Run.slashes 4090).ancestors, ¬ Run.rootTree.Holds [] q "plain.json".toList) := by
  have hname : PlainName "plain.json".toList := ⟨⟨by decide, by decide⟩, by decide⟩
  have habsolute : (Run.slashes 4090).isAbsolute = true := rfl
  have hholds : Run.rootTree.Holds [] (Run.slashes 4090) "plain.json".toList :=
    ⟨[], _, Run.locate_slashes [] (by decide), rfl, rfl⟩
  have hfile : FileName "plain.json".toList := by decide
  have hlong : FileTree.pathLimit ≤
      ((Run.slashes 4090).join ⟨"plain.json".toList⟩).toString.utf8ByteSize :=
    hfile.le_size_join (by rw [Run.slashes, List.length_replicate]; decide)
  have hnone : Run.rootTree.findUpward [] (Run.slashes 4090) ⟨"plain.json".toList⟩ = none := by
    rw [FileTree.findUpward_eq_none_iff habsolute hname, ancestors_slashes]
    intro q hq hoffers
    rw [List.mem_singleton.1 hq] at hoffers
    exact Nat.not_lt.2 hlong hoffers.2
  intro h
  exact h.1 hnone _ List.mem_cons_self hholds

end CircuitFixtures
