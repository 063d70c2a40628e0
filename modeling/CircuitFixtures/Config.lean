import CircuitFixtures.Config.Document
import CircuitFixtures.Config.Inline
import CircuitFixtures.Files.Tree

/-!
# Configuration

Where fixtures are looked for, and which one is meant when none is named. Four layers say
so: the command line, the environment, a configuration file and the defaults, the first of
them first. A directory from the file is seen from the file, any other from the working
directory.
-/

namespace CircuitFixtures

/-- The variables of the environment, in order. -/
abbrev Environment := List (List Char × List Char)

/-! ## Finding the file -/

/-- The nearest file of a name in a directory and those around it. -/
def FileTree.findUpward (t : FileTree) (cwd : Names) (start : Path) (name : Path) : Option Path :=
  (start.ancestors.map (·.join name)).find? (t.isFile cwd)

/-- Which file is read: the given one, else the one found from the working directory, else
the one in the user's configuration directory. -/
def configPath (find : Path → Path → Option Path) (cwd configDir name : Path)
    (given : Option Path) : Path :=
  match given with
  | some p => if p.isAbsolute then p else (cwd.join p).clean
  | none =>
    match find cwd name with
    | some p => p
    | none => (configDir.join name).clean

/-- The name of the file. -/
def configName : Path := .ofString "acirfx.config.yaml"

/-- The user's configuration directory. -/
def Environment.configDir (env : Environment) : Path :=
  let named : Option Path := (env.lookup "XDG_CONFIG_HOME".toList).map Path.mk
  let base : Option Path :=
    match named.filter Path.isAbsolute with
    | some p => some p
    | none =>
      match env.lookup "HOME".toList with
      | none => none
      | some [] => none
      | some home => some ((Path.mk home).join (.ofString ".config"))
  match base with
  | some p => p.join (.ofString "acirfx")
  | none => .ofString "."

/-! ## Layers -/

/-- How the names of variables begin. -/
def variablePrefix : List Char := "acirfx_".toList

/-- The setting that a variable is for, by its name in either case. -/
def settingName? (written : List Char) : Option (List Char) :=
  let name := (Text.trim written).map Char.toLower
  if variablePrefix.isPrefixOf name then some (name.drop variablePrefix.length) else none

/-- The layer of the environment. -/
def Layer.ofEnvironment (env : Environment) : Layer :=
  .ofValues (env.filterMap (fun (name, cs) => (settingName? name).map (·, Inline.setting cs)))

/-- What the command line says. -/
structure Overrides where
  configFile : Option Path
  fixturesDir : Option Path
  defaultFixture : Option (List Char)
  deriving Repr, DecidableEq

def Overrides.none : Overrides := ⟨.none, .none, .none⟩

def Overrides.layer (o : Overrides) : Layer where
  fixturesDir := o.fixturesDir.map (fun p => .text p.chars)
  defaultFixture := o.defaultFixture.map .text

/-! ## Configurations -/

structure Config where
  fixturesDir : Path
  defaultFixture : List Char
  /-- The file that was read. -/
  file : Option Path
  deriving Repr, DecidableEq

inductive ConfigFault where
  | unreadable
  | notFound (file : Path)
  deriving Repr, DecidableEq

def ConfigFault.message : ConfigFault → String
  | .unreadable => "Could not parse configuration"
  | .notFound file => "Configuration file " ++ file.toString ++ " not found"

namespace Config

/-- What holds where no layer says anything. -/
def default : Config :=
  ⟨.ofString "fixtures", "schnorr_verify".toList, none⟩

/-- The file of a fixture. -/
def fixturePath (c : Config) (name : List Char) : Path :=
  c.fixturesDir.join ⟨name ++ ".json".toList⟩

/-- The text of a setting, from the first layer that says something. -/
def settle (layers : List (Option Setting)) (otherwise : List Char) :
    Except ConfigFault (List Char) :=
  match layers.findSome? id with
  | none => .ok otherwise
  | some (.text cs) => .ok cs
  | some .other => .error .unreadable

/-- The layers together; `file` is the file that was read, with what it says. -/
def ofLayers (cwd : Path) (overrides environment : Layer) (file : Option (Path × Layer)) :
    Except ConfigFault Config :=
  let written := (file.map (·.2)).getD .empty
  match settle [overrides.fixturesDir, environment.fixturesDir, written.fixturesDir]
      default.fixturesDir.chars,
    settle [overrides.defaultFixture, environment.defaultFixture, written.defaultFixture]
      default.defaultFixture with
  | .ok dir, .ok name =>
    let fromFile := overrides.fixturesDir.isNone && environment.fixturesDir.isNone &&
      written.fixturesDir.isSome
    let base := match file with
      | some (p, _) => if fromFile then ((cwd.join p).parent?).getD cwd else cwd
      | none => cwd
    let dir : Path := ⟨dir⟩
    .ok ⟨if dir.isAbsolute then dir else (base.join dir).clean, name, file.map (·.1)⟩
  | .error e, _ => .error e
  | _, .error e => .error e

/-- The configuration of a working directory, which stands at `names` in the tree. A file
has to be there only if it is given. -/
def load (t : FileTree) (names : Names) (cwd configDir : Path) (env : Environment)
    (o : Overrides) : Except ConfigFault Config :=
  let path := configPath (t.findUpward names) cwd configDir configName o.configFile
  match t.read names path with
  | .ok content =>
    match Layer.ofBytes? content with
    | none => .error .unreadable
    | some written => ofLayers cwd o.layer (.ofEnvironment env) (some (path, written))
  | .error _ =>
    if o.configFile.isSome then .error (.notFound path)
    else ofLayers cwd o.layer (.ofEnvironment env) none

end Config

end CircuitFixtures
