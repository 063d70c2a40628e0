import CircuitFixtures.CommandLine.Invocation

/-!
# Arguments

A command line has switches for the program, a command, and switches and a name for the
command. The switches of the program may stand behind the command too; what is said there
counts in place of what is said in front of it.

The text of a switch is looked at when the next switch or name is, or at the end: of two
faults, the one of an argument that nothing is known about comes first.
-/

namespace CircuitFixtures.CommandLine

abbrev Argument := List Char

/-- Why a command line is no invocation. -/
inductive UsageFault where
  | unknownArgument
  | unknownCommand
  | missingCommand
  /-- Neither a switch nor a command. -/
  | nothing
  /-- A switch that is given twice, or two that exclude each other. -/
  | conflict
  /-- A switch without its text. -/
  | missingText
  /-- A text for a switch that takes none. -/
  | needlessText
  | missingSwitch
  /-- Help is asked for. -/
  | help
  deriving Repr, DecidableEq

inductive Switch where
  | config
  | fixturesDir
  | verbose
  | quiet
  | help
  | file
  | expected
  | json
  | out
  deriving Repr, DecidableEq

namespace Switch

def long : Switch → String
  | .config => "config"
  | .fixturesDir => "fixtures-dir"
  | .verbose => "verbose"
  | .quiet => "quiet"
  | .help => "help"
  | .file => "file"
  | .expected => "expected"
  | .json => "json"
  | .out => "out"

def short? : Switch → Option Char
  | .config => some 'c'
  | .verbose => some 'v'
  | .quiet => some 'q'
  | .help => some 'h'
  | .out => some 'o'
  | _ => none

/-- The switch comes with a text. -/
def takesText : Switch → Bool
  | .config => true
  | .fixturesDir => true
  | .file => true
  | .out => true
  | _ => false

/-- The switches that may stand anywhere. -/
def everywhere : List Switch :=
  [.config, .fixturesDir, .verbose, .quiet, .help]

end Switch

inductive Command where
  | list
  | check
  | inspect
  | witness
  | publicWitness
  | export
  deriving Repr, DecidableEq

namespace Command

def name : Command → String
  | .list => "list"
  | .check => "check"
  | .inspect => "inspect"
  | .witness => "witness"
  | .publicWitness => "public-witness"
  | .export => "export"

def all : List Command :=
  [.list, .check, .inspect, .witness, .publicWitness, .export]

/-- The switches of the command itself. -/
def switches : Command → List Switch
  | .list => []
  | .witness => [.file, .expected, .json]
  | .export => [.file, .out]
  | _ => [.file]

/-- The command may come with the name of a fixture. -/
def takesName (c : Command) : Bool :=
  c != .list

def ofArgument? (a : Argument) : Option Command :=
  all.find? (fun c => c.name.toList == a)

end Command

/-- The word that asks for help on a command. -/
def helpWord : Argument := "help".toList

/-! ## What is given -/

/-- The switches and the name that are given in front of a command, or behind it. -/
structure Given where
  texts : List (Switch × Argument)
  flags : List Switch
  verbose : Nat
  name : Option Argument
  deriving Repr, DecidableEq

namespace Given

def none : Given := ⟨[], [], 0, .none⟩

def text? (g : Given) (s : Switch) : Option Argument :=
  g.texts.lookup s

def isNothing (g : Given) : Bool :=
  g.texts.isEmpty && g.flags.isEmpty && g.verbose == 0

/-- The greatest count of a switch. -/
def countLimit : Nat := 255

def addText (g : Given) (s : Switch) (a : Argument) : Except UsageFault Given :=
  if (g.text? s).isSome then .error .conflict
  else if a.isEmpty then .error .missingText
  else .ok { g with texts := (s, a) :: g.texts }

/-- Adds a switch that takes no text. -/
def addFlag (g : Given) (s : Switch) : Except UsageFault Given :=
  match s with
  | .help => .error .help
  | .verbose => .ok { g with verbose := min countLimit (g.verbose + 1) }
  | s => if g.flags.contains s then .error .conflict else .ok { g with flags := s :: g.flags }

/-- Switches that exclude each other. -/
def hasConflict (g : Given) : Bool :=
  (g.flags.contains .quiet && 0 < g.verbose) || ((g.text? .file).isSome && g.name.isSome)

end Given

/-! ## Reading arguments -/

/-- What has been read, and the last switch that takes a text, with it or still without
it. -/
structure Progress where
  given : Given
  pending : Option (Switch × Option Argument)
  deriving Repr, DecidableEq

namespace Progress

def start : Progress := ⟨.none, .none⟩

/-- The switch that waits for its text. -/
def waiting? (p : Progress) : Option Switch :=
  match p.pending with
  | some (s, none) => some s
  | _ => none

/-- Looks at the text of the last switch. -/
def settle (p : Progress) : Except UsageFault Given :=
  match p.pending with
  | none => .ok p.given
  | some (_, none) => .error .missingText
  | some (s, some a) => p.given.addText s a

/-- Adds a switch with the text that is attached to it. -/
def addSwitch (p : Progress) (s : Switch) (attached : Option Argument) :
    Except UsageFault Progress :=
  match p.settle with
  | .error e => .error e
  | .ok g =>
    if s.takesText then
      match attached with
      | none => .ok ⟨g, some (s, none)⟩
      | some a => (g.addText s a).map (⟨·, none⟩)
    else (g.addFlag s).map (⟨·, none⟩)

end Progress

/-- A long switch, behind its two dashes. -/
def addLong (known : List Switch) (p : Progress) (cs : List Char) : Except UsageFault Progress :=
  let name := cs.takeWhile (· != '=')
  let attached := match cs.dropWhile (· != '=') with
    | '=' :: text => some text
    | _ => none
  match known.find? (fun s => s.long.toList == name) with
  | none => .error .unknownArgument
  | some s =>
    if !s.takesText && attached.isSome then .error .needlessText else p.addSwitch s attached

/-- Short switches, behind their dash. The first one that takes a text takes what follows
it. -/
def addShorts (known : List Switch) (p : Progress) : List Char → Except UsageFault Progress
  | [] => .ok p
  | c :: cs =>
    match known.find? (fun s => s.short? == some c) with
    | none => .error .unknownArgument
    | some s =>
      if s.takesText then
        p.addSwitch s (match cs with
          | [] => none
          | '=' :: text => some text
          | text => some text)
      else
        match p.addSwitch s none with
        | .error e => .error e
        | .ok p => addShorts known p cs

/-- How a switch, the word that ends all switches, or a plain word is written. -/
inductive Form where
  | endOfSwitches
  | long (cs : List Char)
  | shorts (cs : List Char)
  | word
  deriving Repr, DecidableEq

def Form.of : Argument → Form
  | ['-', '-'] => .endOfSwitches
  | '-' :: '-' :: cs => .long cs
  | ['-'] => .word
  | '-' :: cs => .shorts cs
  | _ => .word

/-- Reads the arguments behind a command. -/
def readCommand (c : Command) (onlyWords : Bool) (p : Progress) :
    List Argument → Except UsageFault Given
  | [] => p.settle
  | a :: as =>
    let word : Except UsageFault Progress :=
      if c.takesName && p.given.name.isNone then
        p.settle.map (fun g => ⟨{ g with name := some a }, none⟩)
      else .error .unknownArgument
    let known := Switch.everywhere ++ c.switches
    let read : Except UsageFault (Bool × Progress) :=
      if onlyWords then word.map (true, ·)
      else
        match Form.of a with
        | .endOfSwitches => .ok (true, p)
        | .long cs => (addLong known p cs).map (false, ·)
        | .shorts cs => (addShorts known p cs).map (false, ·)
        | .word =>
          match p.waiting? with
          | some s => .ok (false, ⟨p.given, some (s, some a)⟩)
          | none => word.map (false, ·)
    match read with
    | .error e => .error e
    | .ok (onlyWords, p) => readCommand c onlyWords p as

/-- Help on a command, which has to be there. -/
def helpFault (as : List Argument) : UsageFault :=
  match as with
  | [] => .help
  | a :: rest =>
    if ((Command.ofArgument? a).isSome || a = helpWord) && rest.isEmpty then .help
    else .unknownCommand

/-- A command with what is given in front of it and behind it. -/
structure Parts where
  command : Command
  front : Given
  behind : Given
  deriving Repr, DecidableEq

/-- What is given behind a command fits it. -/
def validate (c : Command) (g : Given) : Except UsageFault Given :=
  if g.hasConflict then .error .conflict
  else if c = .export ∧ g.text? .out = none then .error .missingSwitch
  else .ok g

/-- Reads all arguments. -/
def readFront (onlyWords : Bool) (p : Progress) : List Argument → Except UsageFault Parts
  | [] =>
    match p.settle with
    | .error e => .error e
    | .ok g => .error (if g.isNothing then .nothing else .missingCommand)
  | a :: as =>
    if onlyWords then
      .error (if (Command.ofArgument? a).isSome || a = helpWord then .unknownArgument
        else .unknownCommand)
    else
      match p.waiting?, Form.of a with
      | _, .endOfSwitches => readFront true p as
      | _, .long cs =>
        match addLong Switch.everywhere p cs with
        | .error e => .error e
        | .ok p => readFront false p as
      | _, .shorts cs =>
        match addShorts Switch.everywhere p cs with
        | .error e => .error e
        | .ok p => readFront false p as
      | some s, .word => readFront false ⟨p.given, some (s, some a)⟩ as
      | none, .word =>
        match Command.ofArgument? a with
        | none => .error (if a = helpWord then helpFault as else .unknownCommand)
        | some c =>
          match readCommand c false .start as with
          | .error e => .error e
          | .ok g =>
            match validate c g with
            | .error e => .error e
            | .ok behind =>
              match p.settle with
              | .error e => .error e
              | .ok front => if front.hasConflict then .error .conflict else .ok ⟨c, front, behind⟩

/-! ## Invocations -/

namespace Parts

/-- The text of a switch that may stand anywhere. -/
def text? (p : Parts) (s : Switch) : Option Argument :=
  (p.behind.text? s).or (p.front.text? s)

def source (p : Parts) : FixtureSource :=
  ⟨p.behind.name, (p.behind.text? .file).map Path.mk⟩

def action (p : Parts) : Action :=
  match p.command with
  | .list => .list
  | .check => .check p.source
  | .inspect => .inspect p.source
  | .witness =>
    .witness p.source (p.behind.flags.contains .expected) (p.behind.flags.contains .json)
  | .publicWitness => .publicWitness p.source
  | .export => .export p.source ⟨(p.behind.text? .out).getD []⟩

def invocation (p : Parts) : Invocation where
  config := (p.text? .config).map Path.mk
  fixturesDir := (p.text? .fixturesDir).map Path.mk
  action := p.action
  verbose := if 0 < p.behind.verbose then p.behind.verbose else p.front.verbose
  quiet := p.behind.flags.contains .quiet || p.front.flags.contains .quiet

end Parts

/-- The invocation that arguments ask for. -/
def parse (as : List Argument) : Except UsageFault Invocation :=
  (readFront false .start as).map Parts.invocation

end CircuitFixtures.CommandLine
