import CircuitFixtures.Config
import CircuitFixtures.Proofs.Files.Parents
import CircuitFixtures.Proofs.Text.Utf8

/-!
# Layers of a configuration

Each setting has the value that the highest layer gives it which says anything about it (`Wins`).
What a layer says is told from what was given: the command line, the variables, the file
(`Setup.told`). What lower layers say does not matter, of whatever kind it is: two loads whose
layers agree down to the winning one give the same (`Setup.load_of_agree`). A relative directory is
seen from the directory of the configuration file if the file is the layer that gives it, else from
the working directory. `Setup.load_layered` puts this together.
-/

namespace CircuitFixtures

namespace Config

/-! ## The highest layer -/

/-- Where a value may come from, the highest first. -/
inductive Origin where
  | overrides
  | environment
  | file
  | defaults
  deriving Repr, DecidableEq

/-- How many origins stand above one. -/
def Origin.depth : Origin → Nat
  | .overrides => 0
  | .environment => 1
  | .file => 2
  | .defaults => 3

/-- `o` is the highest origin that says anything, and says `v`. -/
structure Wins (told : Origin → Option Setting) (o : Origin) (v : Setting) : Prop where
  told_eq : told o = some v
  above : ∀ o', o'.depth < o.depth → told o' = none

/-- The same is said from the highest origin down to the first that says anything. -/
def Agree (told told' : Origin → Option Setting) : Prop :=
  ∀ o, (∀ o', o'.depth < o.depth → told o' = none) → told' o = told o

section

variable {told told' : Origin → Option Setting} {o : Origin} {v : Setting}

theorem exists_wins {o : Origin} {v : Setting} (h : told o = some v) :
    ∃ o v, Wins told o v := by
  by_cases hhigher : ∃ o' v', o'.depth < o.depth ∧ told o' = some v'
  · obtain ⟨o', v', hlt, h'⟩ := hhigher
    exact exists_wins h'
  · refine ⟨o, v, h, fun o' hlt => ?_⟩
    cases h' : told o' with
    | none => rfl
    | some v' => exact absurd ⟨o', v', hlt, h'⟩ hhigher
termination_by o.depth

theorem Wins.agree (hagree : Agree told told') (h : Wins told o v) : Wins told' o v where
  told_eq := by rw [hagree o h.above, h.told_eq]
  above := by
    intro o' ho'
    rw [hagree o' fun o'' ho'' => h.above o'' (Nat.lt_trans ho'' ho'), h.above o' ho']

end

/-- The text that a setting has to be. -/
def textOf : Setting → Except ConfigFault (List Char)
  | .text cs => .ok cs
  | .other => .error .unreadable

theorem settle_of_wins {told : Origin → Option Setting} {o : Origin} {v : Setting}
    {otherwise : List Char} (hdefaults : told .defaults = some (.text otherwise))
    (h : Wins told o v) :
    settle [told .overrides, told .environment, told .file] otherwise = textOf v := by
  have hv := h.told_eq
  cases o with
  | overrides => cases v <;> simp [settle, hv, textOf]
  | environment =>
    have h₁ := h.above .overrides (by decide)
    cases v <;> simp [settle, h₁, hv, textOf]
  | file =>
    have h₁ := h.above .overrides (by decide)
    have h₂ := h.above .environment (by decide)
    cases v <;> simp [settle, h₁, h₂, hv, textOf]
  | defaults =>
    have h₁ := h.above .overrides (by decide)
    have h₂ := h.above .environment (by decide)
    have h₃ := h.above .file (by decide)
    rw [hdefaults] at hv
    cases hv
    simp [settle, h₁, h₂, h₃, textOf]

/-! ## Layers put together -/

/-- The settings that layers say something about. -/
inductive Key where
  | fixturesDir
  | defaultFixture
  deriving Repr, DecidableEq

def Key.read : Key → Layer → Option Setting
  | .fixturesDir => Layer.fixturesDir
  | .defaultFixture => Layer.defaultFixture

/-- What the command line says about a setting. -/
def Key.given (o : Overrides) : Key → Option Setting
  | .fixturesDir => o.fixturesDir.map fun p => .text p.chars
  | .defaultFixture => o.defaultFixture.map .text

/-- What holds for a setting about which nothing is said. -/
def Key.otherwise : Key → List Char
  | .fixturesDir => "fixtures".toList
  | .defaultFixture => "schnorr_verify".toList

/-- The variable of a setting, in lower case. -/
def Key.variable : Key → List Char
  | .fixturesDir => "acirfx_fixtures_dir".toList
  | .defaultFixture => "acirfx_default_fixture".toList

/-- What the last variable of a setting says. -/
def Key.inEnvironment (key : Key) (env : Environment) : Option Setting :=
  (env.reverse.find? fun v => (Text.trim v.1).map Char.toLower = key.variable).map fun v =>
    Inline.setting v.2

theorem settingName?_eq_some_iff {written name : List Char} :
    settingName? written = some name ↔
      (Text.trim written).map Char.toLower = variablePrefix ++ name := by
  rw [settingName?]
  constructor
  · intro h
    split at h
    · rename_i hprefix
      obtain ⟨rest, hrest⟩ := List.isPrefixOf_iff_prefix.1 hprefix
      rw [← hrest, List.drop_left] at h
      rw [← hrest, Option.some.inj h]
    · cases h
  · intro h
    have hprefix : variablePrefix.isPrefixOf (variablePrefix ++ name) = true :=
      List.isPrefixOf_iff_prefix.2 (List.prefix_append _ _)
    simp only [h, hprefix, if_true, List.drop_left]

/-- The values of variables for settings, the first of a name. -/
theorem lookup_filterMap_settingName? (env : Environment) (name : List Char) :
    (env.filterMap fun (written, cs) =>
        (settingName? written).map (·, Inline.setting cs)).lookup name =
      (env.find? fun v => (Text.trim v.1).map Char.toLower = variablePrefix ++ name).map fun v =>
        Inline.setting v.2 := by
  induction env with
  | nil => rfl
  | cons v env ih =>
    obtain ⟨written, cs⟩ := v
    by_cases hname : settingName? written = some name
    · have hwritten := settingName?_eq_some_iff.1 hname
      simp [hname, hwritten]
    · have hwritten := mt settingName?_eq_some_iff.2 hname
      cases hother : settingName? written with
      | none => simp [hother, hwritten, ih]
      | some other =>
        have hne : (name == other) = false := by
          rw [beq_eq_false_iff_ne]
          rintro rfl
          exact hname hother
        simp [hother, hwritten, ih, List.lookup_cons, hne]

theorem Key.read_ofEnvironment (key : Key) (env : Environment) :
    key.read (.ofEnvironment env) = key.inEnvironment env := by
  cases key
  all_goals
    simp only [Key.read, Layer.ofEnvironment, Layer.ofValues, ← List.filterMap_reverse,
      lookup_filterMap_settingName?]
    rfl

/-- The layer of the defaults. -/
def defaultLayer : Layer :=
  ⟨some (.text default.fixturesDir.chars), some (.text default.defaultFixture)⟩

/-- What the layers say about a setting. -/
def told (overrides environment written : Layer) (key : Key) : Origin → Option Setting
  | .overrides => key.read overrides
  | .environment => key.read environment
  | .file => key.read written
  | .defaults => key.read defaultLayer

/-- The directory from which a relative value is seen: that of the file that was read, if there the
value stands. -/
def base (cwd : Path) (file : Option Path) : Origin → Path
  | .file => (file.bind fun p => (cwd.join p).parent?).getD cwd
  | _ => cwd

/-- A directory as it is kept. -/
def placed (base dir : Path) : Path :=
  if dir.isAbsolute then dir else (base.join dir).clean

theorem isAbsolute_placed {base dir : Path} (h : base.isAbsolute = true) :
    (placed base dir).isAbsolute = true := by
  rw [placed]
  split
  · assumption
  · exact Path.isAbsolute_clean (Path.isAbsolute_join h)

section

variable {cwd : Path} {overrides environment written : Layer} {file : Option Path}
variable {o o' : Origin} {v v' : Setting}

theorem fromFile_of_wins (h : Wins (told overrides environment written .fixturesDir) o v) :
    (overrides.fixturesDir.isNone && environment.fixturesDir.isNone &&
      written.fixturesDir.isSome) = decide (o = .file) := by
  have hv := h.told_eq
  cases o with
  | overrides =>
    have hv : overrides.fixturesDir = some v := hv
    simp [hv]
  | environment =>
    have hv : environment.fixturesDir = some v := hv
    simp [hv]
  | file =>
    have h₁ : overrides.fixturesDir = none := h.above .overrides (by decide)
    have h₂ : environment.fixturesDir = none := h.above .environment (by decide)
    have hv : written.fixturesDir = some v := hv
    simp [h₁, h₂, hv]
  | defaults =>
    have h₃ : written.fixturesDir = none := h.above .file (by decide)
    simp [h₃]

/-- Layers give what wins in them; `written` is what the file says, which says nothing if it is
not there. -/
theorem ofLayers_of_wins (hfile : file = none → written = .empty)
    (h : Wins (told overrides environment written .fixturesDir) o v)
    (h' : Wins (told overrides environment written .defaultFixture) o' v') :
    ofLayers cwd overrides environment (file.map (·, written)) =
      match textOf v, textOf v' with
      | .ok dir, .ok name => .ok ⟨placed (base cwd file o) ⟨dir⟩, name, file⟩
      | .error e, _ => .error e
      | _, .error e => .error e := by
  have hwritten : ((file.map (·, written)).map (·.2)).getD .empty = written := by
    cases file with
    | none => exact (hfile rfl).symm
    | some p => rfl
  have hdir : settle _ default.fixturesDir.chars = _ := settle_of_wins rfl h
  have hname : settle _ default.defaultFixture = _ := settle_of_wins rfl h'
  simp only [told, Key.read] at hdir hname
  rw [ofLayers, hwritten, hdir, hname, fromFile_of_wins h]
  cases textOf v with
  | error e => rfl
  | ok dir =>
    cases textOf v' with
    | error e => rfl
    | ok name => cases file <;> cases o <;> rfl

end

/-! ## Loading -/

/-- What a configuration is loaded from. -/
structure Setup where
  tree : FileTree
  names : Names
  cwd : Path
  configDir : Path
  environment : Environment
  overrides : Overrides

namespace Setup

/-- The file that is looked for. -/
def path (s : Setup) : Path :=
  configPath (s.tree.findUpward s.names) s.cwd s.configDir configName s.overrides.configFile

def load (s : Setup) : Except ConfigFault Config :=
  Config.load s.tree s.names s.cwd s.configDir s.environment s.overrides

def hasFile (s : Setup) : Bool :=
  s.tree.isFile s.names s.path

/-- The file that is read. -/
def file? (s : Setup) : Option Path :=
  if s.hasFile then some s.path else none

/-- What the file says, unless it cannot be read. A file that is not there says nothing. -/
def written? (s : Setup) : Option Layer :=
  match s.tree.read s.names s.path with
  | .ok content => Layer.ofBytes? content
  | .error _ => some .empty

/-- What each origin says about a setting. -/
def told (s : Setup) (key : Key) : Origin → Option Setting
  | .overrides => key.given s.overrides
  | .environment => key.inEnvironment s.environment
  | .file => key.read (s.written?.getD .empty)
  | .defaults => some (.text key.otherwise)

theorem told_eq (s : Setup) :
    s.told = Config.told s.overrides.layer (.ofEnvironment s.environment)
      (s.written?.getD .empty) := by
  funext key o
  cases o with
  | overrides => cases key <;> rfl
  | environment => exact (Key.read_ofEnvironment key s.environment).symm
  | file => rfl
  | defaults => cases key <;> rfl

theorem load_eq (s : Setup) :
    s.load = match s.written? with
      | none => .error .unreadable
      | some written =>
        if s.overrides.configFile.isSome && !s.hasFile then .error (.notFound s.path)
        else ofLayers s.cwd s.overrides.layer (.ofEnvironment s.environment)
          (s.file?.map (·, written)) := by
  have hpath : configPath (s.tree.findUpward s.names) s.cwd s.configDir configName
      s.overrides.configFile = s.path := rfl
  rw [load, Config.load, hpath, written?, file?]
  cases hread : s.tree.read s.names s.path with
  | ok content =>
    have hfile : s.hasFile = true := FileTree.isFile_iff.2 ⟨content, hread⟩
    cases hlayer : Layer.ofBytes? content with
    | none => simp [hlayer]
    | some written => simp [hlayer, hfile]
  | error e =>
    have hfile : s.hasFile = false := by
      rw [← Bool.not_eq_true, hasFile, FileTree.isFile_iff, hread]
      rintro ⟨content, h⟩
      cases h
    simp only [hfile, Bool.not_false, Bool.and_true, Bool.false_eq_true, if_false,
      Option.map_none]

theorem written?_of_file?_eq_none {s : Setup} (h : s.file? = none) : s.written? = some .empty := by
  rw [file?] at h
  split at h
  · cases h
  · rename_i hfile
    rw [written?]
    split
    · rename_i content hread
      exact absurd (FileTree.isFile_iff.2 ⟨content, hread⟩) hfile
    · rfl

/-! ### What wins -/

theorem exists_wins (s : Setup) (key : Key) : ∃ o v, Wins (s.told key) o v := by
  cases key
  · exact Config.exists_wins (o := .defaults) rfl
  · exact Config.exists_wins (o := .defaults) rfl

/-- A load puts together what wins, if the file can be read and is there where it has to be. -/
theorem load_of_wins {s : Setup} {o o' : Origin} {v v' : Setting}
    (h : Wins (s.told .fixturesDir) o v) (h' : Wins (s.told .defaultFixture) o' v') :
    s.load =
      if s.written?.isNone then .error .unreadable
      else if s.overrides.configFile.isSome && !s.hasFile then .error (.notFound s.path)
      else
        match textOf v, textOf v' with
        | .ok dir, .ok name => .ok ⟨placed (base s.cwd s.file? o) ⟨dir⟩, name, s.file?⟩
        | .error e, _ => .error e
        | _, .error e => .error e := by
  rw [load_eq]
  cases hwritten : s.written? with
  | none => rfl
  | some written =>
    have hempty : s.file? = none → written = .empty := by
      intro hnone
      rw [written?_of_file?_eq_none hnone] at hwritten
      exact (Option.some.inj hwritten).symm
    simp only [told_eq, hwritten, Option.getD_some] at h h'
    simp only [ofLayers_of_wins hempty h h', Option.isNone_some, Bool.false_eq_true, if_false]

/-- What has to hold for a load to give something. -/
theorem load_eq_ok_iff {s : Setup} {o o' : Origin} {v v' : Setting} {cfg : Config}
    (h : Wins (s.told .fixturesDir) o v) (h' : Wins (s.told .defaultFixture) o' v') :
    s.load = .ok cfg ↔
      s.written?.isSome = true ∧ (s.overrides.configFile.isSome = true → s.hasFile = true) ∧
        ∃ dir name, v = .text dir ∧ v' = .text name ∧
          cfg = ⟨placed (base s.cwd s.file? o) ⟨dir⟩, name, s.file?⟩ := by
  rw [load_of_wins h h']
  cases s.written? with
  | none => simp
  | some written =>
    cases s.overrides.configFile <;> cases s.hasFile <;> cases v <;> cases v' <;>
      simp [textOf, eq_comm]

/-- There is a configuration wherever the file can be read, is there if it is given, and a text
wins for every setting. -/
theorem exists_load_iff (s : Setup) :
    (∃ cfg, s.load = .ok cfg) ↔
      s.written?.isSome = true ∧ (s.overrides.configFile.isSome = true → s.hasFile = true) ∧
        ∀ key, ∃ o cs, Wins (s.told key) o (.text cs) := by
  constructor
  · rintro ⟨cfg, h⟩
    obtain ⟨o, v, hdir⟩ := s.exists_wins .fixturesDir
    obtain ⟨o', v', hname⟩ := s.exists_wins .defaultFixture
    obtain ⟨hread, hthere, dir, name, rfl, rfl, -⟩ := (load_eq_ok_iff hdir hname).1 h
    refine ⟨hread, hthere, fun key => ?_⟩
    cases key with
    | fixturesDir => exact ⟨o, dir, hdir⟩
    | defaultFixture => exact ⟨o', name, hname⟩
  · rintro ⟨hread, hthere, htext⟩
    obtain ⟨o, dir, hdir⟩ := htext .fixturesDir
    obtain ⟨o', name, hname⟩ := htext .defaultFixture
    exact ⟨_, (load_eq_ok_iff hdir hname).2 ⟨hread, hthere, dir, name, rfl, rfl, rfl⟩⟩

/-! ### The file -/

theorem isAbsolute_path {s : Setup} (hcwd : s.cwd.isAbsolute = true)
    (hdir : s.configDir.isAbsolute = true) : s.path.isAbsolute = true := by
  rw [path, configPath.eq_def]
  split
  · split
    · assumption
    · exact Path.isAbsolute_clean (Path.isAbsolute_join hcwd)
  · split
    · rename_i found hfound
      rw [FileTree.findUpward] at hfound
      obtain ⟨dir, hmem, rfl⟩ := List.mem_map.1 (List.mem_of_find?_eq_some hfound)
      refine Path.isAbsolute_join ?_
      rcases List.mem_cons.1 hmem with rfl | hmem
      · exact hcwd
      · exact Path.isAbsolute_of_mem_parents hcwd hmem
    · exact Path.isAbsolute_clean (Path.isAbsolute_join hdir)

/-- Only a file that is there wins. -/
theorem hasFile_of_wins {s : Setup} {key : Key} {v : Setting} (h : Wins (s.told key) .file v) :
    s.hasFile = true := by
  cases hfile : s.hasFile with
  | true => rfl
  | false =>
    have hnone : s.file? = none := by simp [file?, hfile]
    have hv := h.told_eq
    rw [told, written?_of_file?_eq_none hnone] at hv
    cases key <;> cases hv

/-- A value in the file is seen from the directory around the file. -/
theorem parent?_path {s : Setup} (hpath : s.path.isAbsolute = true) (hfile : s.hasFile = true) :
    s.path.parent? = some (base s.cwd s.file? .file) := by
  obtain ⟨dir, hdir⟩ := FileTree.exists_parent_of_isFile hpath hfile
  simp [base, file?, hfile, Path.join, hpath, hdir]

theorem isAbsolute_base {s : Setup} (hcwd : s.cwd.isAbsolute = true)
    (hpath : s.path.isAbsolute = true) (o : Origin) : (base s.cwd s.file? o).isAbsolute = true := by
  cases o with
  | file =>
    cases hfile : s.hasFile with
    | false => simpa [base, file?, hfile] using hcwd
    | true =>
      have hparent := parent?_path hpath hfile
      exact Path.isAbsolute_of_mem_parents hpath (List.mem_of_mem_head? hparent)
  | overrides => exact hcwd
  | environment => exact hcwd
  | defaults => exact hcwd

/-! ### What does not matter -/

/-- Both are loaded in one place, and from one path at which there is a file for both or for
neither. What the files say is left open. -/
structure SamePlace (s s' : Setup) : Prop where
  cwd : s'.cwd = s.cwd
  given : s'.overrides.configFile = s.overrides.configFile
  path : s'.path = s.path
  hasFile : s'.hasFile = s.hasFile

/-- What stands below the winning layers does not matter, as long as the file can be read. -/
theorem load_of_agree {s s' : Setup} {cfg : Config} (hplace : SamePlace s s')
    (hagree : ∀ key, Agree (s.told key) (s'.told key)) (hread : s'.written?.isSome = true)
    (h : s.load = .ok cfg) : s'.load = .ok cfg := by
  obtain ⟨o, v, hdir⟩ := s.exists_wins .fixturesDir
  obtain ⟨o', v', hname⟩ := s.exists_wins .defaultFixture
  obtain ⟨-, hthere, dir, name, hv, hv', hcfg⟩ := (load_eq_ok_iff hdir hname).1 h
  have hfile : s'.file? = s.file? := by rw [file?, file?, hplace.hasFile, hplace.path]
  refine (load_eq_ok_iff (hdir.agree (hagree _)) (hname.agree (hagree _))).2
    ⟨hread, ?_, dir, name, hv, hv', ?_⟩
  · rwa [hplace.given, hplace.hasFile]
  · rw [hcfg, hfile, hplace.cwd]

/-! ## Layering -/

/-- What a configuration has to be to come from layers. -/
structure Layered (s : Setup) (cfg : Config) : Prop where
  /-- The directory is kept if it is absolute. Else it is seen from the directory of the file if
  that is where it comes from, and from the working directory if not. -/
  fixturesDir : ∃ o dir, Wins (s.told .fixturesDir) o (.text dir) ∧
    ((Path.mk dir).isAbsolute = true → cfg.fixturesDir = ⟨dir⟩) ∧
    ((Path.mk dir).isAbsolute = false → ∃ base, cfg.fixturesDir = (base.join ⟨dir⟩).clean ∧
      (o = .file → s.path.parent? = some base) ∧ (o ≠ .file → base = s.cwd))
  defaultFixture : ∃ o, Wins (s.told .defaultFixture) o (.text cfg.defaultFixture)
  isAbsolute : cfg.fixturesDir.isAbsolute = true
  file : cfg.file = if s.hasFile then some s.path else none
  /-- Whatever stands below the winning layers may be changed at will. -/
  masked : ∀ s' : Setup, s.SamePlace s' → s'.written?.isSome = true →
    (∀ key, Agree (s.told key) (s'.told key)) → s'.load = .ok cfg

theorem layered_of_load {s : Setup} {cfg : Config} (hcwd : s.cwd.isAbsolute = true)
    (hconfigDir : s.configDir.isAbsolute = true) (h : s.load = .ok cfg) : s.Layered cfg := by
  obtain ⟨o, v, hdir⟩ := s.exists_wins .fixturesDir
  obtain ⟨o', v', hname⟩ := s.exists_wins .defaultFixture
  obtain ⟨-, -, dir, name, rfl, rfl, rfl⟩ := (load_eq_ok_iff hdir hname).1 h
  have hpath := isAbsolute_path hcwd hconfigDir
  refine ⟨⟨o, dir, hdir, ?_, ?_⟩, ⟨o', hname⟩, ?_, rfl, ?_⟩
  · intro habsolute
    exact if_pos habsolute
  · intro hrelative
    refine ⟨base s.cwd s.file? o, by simp [placed, hrelative], ?_, ?_⟩
    · rintro rfl
      exact parent?_path hpath (hasFile_of_wins hdir)
    · intro ho
      cases o with
      | file => exact absurd rfl ho
      | overrides => rfl
      | environment => rfl
      | defaults => rfl
  · exact isAbsolute_placed (isAbsolute_base hcwd hpath o)
  · intro s' hplace hread hagree
    exact load_of_agree hplace hagree hread h

/-- From absolute directories there is a configuration exactly where a text wins for every setting
and nothing is wrong with the file, and it comes from the layers. -/
theorem load_layered {s : Setup} (hcwd : s.cwd.isAbsolute = true)
    (hconfigDir : s.configDir.isAbsolute = true) :
    ((∃ cfg, s.load = .ok cfg) ↔
      s.written?.isSome = true ∧ (s.overrides.configFile.isSome = true → s.hasFile = true) ∧
        ∀ key, ∃ o cs, Wins (s.told key) o (.text cs)) ∧
    ∀ cfg, s.load = .ok cfg → s.Layered cfg :=
  ⟨exists_load_iff s, fun _ => layered_of_load hcwd hconfigDir⟩

/-- A working directory with a configuration file in the directory around it, and what the
environment and the command line say. -/
def sample (content : List UInt8) (environment : Environment) (dir : Option Path) : Setup where
  tree := ((FileTree.empty.put [['w']] .directory).put [['w'], ['s']] .directory).put
    [['w'], configName.chars] (.file content)
  names := [['w'], ['s']]
  cwd := ⟨['/', 'w', '/', 's']⟩
  configDir := ⟨['/', 'c']⟩
  environment := environment
  overrides := ⟨none, dir, none⟩

/-- The file of the samples. -/
def samplePath : Path := ⟨"/w/acirfx.config.yaml".toList⟩

section

variable (content content' : List UInt8) (environment : Environment) (dir : Option Path)
variable {cs : List Char} {written : Layer}

theorem path_sample : (sample content environment dir).path = samplePath := by
  rfl

theorem read_sample :
    (sample content environment dir).tree.read (sample content environment dir).names
      (sample content environment dir).path = .ok content := by
  rw [path_sample]
  rfl

theorem hasFile_sample : (sample content environment dir).hasFile = true :=
  FileTree.isFile_iff.2 ⟨content, read_sample content environment dir⟩

theorem samePlace_sample :
    (sample content environment dir).SamePlace (sample content' environment dir) :=
  ⟨rfl, rfl, by rw [path_sample, path_sample], by rw [hasFile_sample, hasFile_sample]⟩

/-- The samples differ in what their files say only. -/
theorem told_sample {key : Key} {o : Origin} (ho : o ≠ .file) :
    (sample content environment dir).told key o = (sample content' environment dir).told key o := by
  cases o with
  | file => exact absurd rfl ho
  | overrides => rfl
  | environment => rfl
  | defaults => rfl

theorem written?_sample (h : (Yaml.Document.ofText? cs).bind Layer.ofDocument? = some written) :
    (sample (Utf8.encode cs) environment dir).written? = some written := by
  rw [written?, read_sample]
  simp only [Layer.ofBytes?, Utf8.decode_encode, h]

theorem load_sample (h : (sample content environment dir).written? = some written) :
    (sample content environment dir).load =
      ofLayers ⟨['/', 'w', '/', 's']⟩ (Overrides.layer ⟨none, dir, none⟩)
        (.ofEnvironment environment) (some (samplePath, written)) := by
  rw [load_eq, h]
  simp only [hasFile_sample, file?, path_sample]
  rfl

end

/-- A file that names the directory. -/
def sampleText : List Char :=
  "fixtures_dir: data\n".toList

/-- The same with a list in the place of a text that the variable hides. -/
def sampleTextMasked : List Char :=
  "fixtures_dir: data\ndefault_fixture: [7]\n".toList

/-- A variable for the fixture. -/
def sampleName : Environment :=
  [("ACIRFX_DEFAULT_FIXTURE".toList, "cube".toList)]

/-- A variable for the directory. -/
def sampleDir : Environment :=
  [("ACIRFX_FIXTURES_DIR".toList, "other".toList)]

/-- The directory is seen from the file that names it, the fixture is that of the variable. -/
def sampleConfig : Config :=
  ⟨⟨"/w/data".toList⟩, "cube".toList, some samplePath⟩

/-- The directory of the command line is seen from the working directory, the fixture is that of the
defaults. -/
def sampleOverridden : Config :=
  ⟨⟨"/w/s/mine".toList⟩, "schnorr_verify".toList, some samplePath⟩

theorem written?_sampleText (environment : Environment) (dir : Option Path) :
    (sample (Utf8.encode sampleText) environment dir).written? =
      some ⟨some (.text "data".toList), none⟩ :=
  written?_sample environment dir (by decide +kernel)

theorem written?_sampleTextMasked :
    (sample (Utf8.encode sampleTextMasked) sampleName none).written? =
      some ⟨some (.text "data".toList), some .other⟩ :=
  written?_sample sampleName none (by decide +kernel)

theorem agree_sample (key : Key) :
    Agree ((sample (Utf8.encode sampleText) sampleName none).told key)
      ((sample (Utf8.encode sampleTextMasked) sampleName none).told key) := by
  intro o habove
  by_cases ho : o = .file
  · subst ho
    cases key with
    | fixturesDir =>
      simp only [told, written?_sampleText, written?_sampleTextMasked]
      rfl
    | defaultFixture =>
      have hvariable := habove .environment (by decide)
      cases hvariable
  · exact told_sample _ _ _ _ ho

theorem sample_layered :
    (sample (Utf8.encode sampleText) sampleName none).load = .ok sampleConfig ∧
      (sample (Utf8.encode sampleText) sampleName none).Layered sampleConfig ∧
      (sample (Utf8.encode sampleTextMasked) sampleName none).load = .ok sampleConfig ∧
      (sample (Utf8.encode sampleText) sampleDir (some ⟨"mine".toList⟩)).load =
        .ok sampleOverridden ∧
      (sample (Utf8.encode sampleText) sampleDir (some ⟨"mine".toList⟩)).Layered
        sampleOverridden := by
  have hload : (sample (Utf8.encode sampleText) sampleName none).load = .ok sampleConfig := by
    rw [load_sample _ _ _ (written?_sampleText _ _)]
    rfl
  have hoverridden : (sample (Utf8.encode sampleText) sampleDir (some ⟨"mine".toList⟩)).load =
      .ok sampleOverridden := by
    rw [load_sample _ _ _ (written?_sampleText _ _)]
    rfl
  have h := (load_layered rfl rfl).2 _ hload
  refine ⟨hload, h, ?_, hoverridden, (load_layered rfl rfl).2 _ hoverridden⟩
  refine h.masked _ (samePlace_sample _ _ _ _) ?_ agree_sample
  rw [written?_sampleTextMasked]
  rfl

end Setup

end Config

end CircuitFixtures
