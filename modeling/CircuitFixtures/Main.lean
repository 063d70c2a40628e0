import CircuitFixtures.CommandLine.Run

/-!
# The program

Reads the part of the real file tree that an invocation can touch, runs the invocation on
it, and writes what the run has changed.
-/

namespace CircuitFixtures.Main

/-- How the program is used. -/
def usage : String :=
  "usage: acirfx [-c FILE] [--fixtures-dir DIR] [-v | -q] COMMAND\n\n" ++
    "commands:\n" ++
    "  list\n" ++
    "  check [NAME | --file FILE]\n" ++
    "  inspect [NAME | --file FILE]\n" ++
    "  witness [NAME | --file FILE] [--expected] [--json]\n" ++
    "  public-witness [NAME | --file FILE]\n" ++
    "  export [NAME | --file FILE] -o FILE\n"

/-- Adds the entry at an absolute path to a tree, if there is one. -/
def addEntry (t : FileTree) (p : Path) : IO FileTree := do
  let text := p.clean.toString
  if h : IsEntry p.cleanSegments then
    try
      let real ← IO.FS.realPath text
      if ← real.isDir then return t.put p.cleanSegments .directory h
      return t.put p.cleanSegments (.file (← IO.FS.readBinFile text).toList) h
    catch _ => return t
  else return t

/-- Adds the entry at a path and the directories around it. -/
def addPath (cwd : Path) (t : FileTree) (p : Path) : IO FileTree :=
  (cwd.join p).ancestors.foldlM addEntry t

/-- Adds the names in a directory. -/
def addNames (cwd : Path) (t : FileTree) (dir : Path) : IO FileTree := do
  let p := (cwd.join dir).clean
  try
    let real ← IO.FS.realPath p.toString
    let files ← real.readDir
    return files.foldl (fun t file =>
      let names := p.cleanSegments ++ [file.fileName.toList]
      if h : IsEntry names then t.put names (.file []) h else t) t
  catch _ => return t

/-- The variables that matter. -/
def environment : IO Environment := do
  let names := ["HOME", "XDG_CONFIG_HOME", "ACIRFX_FIXTURES_DIR", "ACIRFX_DEFAULT_FIXTURE"]
  let found ← names.mapM (fun name => return (name, ← IO.getEnv name))
  return found.filterMap (fun (name, value) => value.map (fun v => (name.toList, v.toList)))

/-- The paths from which the configuration may come. -/
def configPaths (place : Place) (i : Invocation) : List Path :=
  i.config.toList ++ place.cwd.ancestors.map (·.join configName) ++
    [place.environment.configDir.join configName]

/-- The paths that an action touches. -/
def actionPaths (c : Config) : Action → List Path
  | .list => [c.fixturesDir]
  | .check s => sourcePaths s
  | .inspect s => sourcePaths s
  | .witness s _ _ => sourcePaths s
  | .publicWitness s => sourcePaths s
  | .export s out => sourcePaths s ++ [out]
where
  sourcePaths (s : FixtureSource) : List Path :=
    s.file.toList ++ [c.fixturePath (s.name.getD c.defaultFixture)]

/-- The part of the tree that an invocation can touch. -/
def survey (place : Place) (i : Invocation) : IO FileTree := do
  let t ← (configPaths place i).foldlM (addPath place.cwd) .empty
  match i.load place t with
  | .error _ => return t
  | .ok c =>
    let t ← (actionPaths c i.action).foldlM (addPath place.cwd) t
    if i.action = .list then addNames place.cwd t c.fixturesDir else return t

/-- Writes an entry that a run has put into the tree. -/
def writeEntry (entry : Names × Entry) : IO Unit := do
  let text := "/" ++ String.ofList (Path.unsplit entry.1)
  match entry.2 with
  | .directory => IO.FS.createDirAll text
  | .file content => IO.FS.writeBinFile text ⟨content.toArray⟩

/-- Writes what is new in a tree, directories first. -/
def writeChanges (before after : FileTree) : IO Unit := do
  let changed := after.entries.filter (fun e => before.find? e.1 != some e.2)
  let (directories, files) := changed.partition (fun e => e.2 == .directory)
  (directories ++ files).forM writeEntry

def runInvocation (i : Invocation) : IO UInt32 := do
  let cwd := Path.ofString (← IO.currentDir).toString
  let place : Place := ⟨cwd.cleanSegments, ← environment⟩
  let tree ← survey place i
  let outcome := i.run place tree
  writeChanges tree outcome.tree
  IO.print outcome.shown
  match outcome.causes with
  | some causes => IO.eprintln (Outcome.complaint causes)
  | none => pure ()
  return UInt32.ofNat outcome.exitCode

end CircuitFixtures.Main

def main (args : List String) : IO UInt32 := do
  match CircuitFixtures.CommandLine.parse (args.map String.toList) with
  | .ok i => CircuitFixtures.Main.runInvocation i
  | .error .help =>
    IO.print CircuitFixtures.Main.usage
    return 0
  | .error _ =>
    IO.eprint CircuitFixtures.Main.usage
    return 2
