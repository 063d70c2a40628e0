import CircuitFixtures.Config.Setting
import CircuitFixtures.Text.Utf8
import CircuitFixtures.Yaml.Resolve

/-!
# Configuration files

A configuration file is a YAML mapping. Every value in it has to be readable, those of
unknown keys too; a tag of its own makes a value unreadable.
-/

namespace CircuitFixtures.Yaml

/-- How deep collections may stand in each other. -/
def depthLimit : Nat := 128

/-- The tag of a type that only some other program knows. -/
def isLocal (tag : Option (List Char)) : Bool :=
  tag.any (fun t => t.head? == some '!')

/-- A tag of the types that all programs know. -/
def coreTag (name : String) : List Char :=
  "tag:yaml.org,2002:".toList ++ name.toList

/-- What a scalar says, unless it does not fit its tag. -/
def scalarSetting? (tag : Option (List Char)) (plain : Bool) (cs : List Char) : Option Setting :=
  match tag with
  | none => some (if plain && !isText cs then .other else .text cs)
  | some t =>
    if isLocal tag then none
    else if t = coreTag "bool" then (if isTruth cs then some .other else none)
    else if t = coreTag "int" then (if isInteger cs then some .other else none)
    else if t = coreTag "float" then (if isFloat cs then some .other else none)
    else if t = coreTag "null" then (if isNull cs then some .other else none)
    else some (.text cs)

/-- The text of a key. -/
def Node.key? : Node → Option (List Char)
  | .scalar _ _ cs => some cs
  | _ => none

mutual

/-- What a node says, unless something in it is unreadable. -/
def Node.setting? (depth : Nat) : Node → Option Setting
  | .scalar tag plain cs => scalarSetting? tag plain cs
  | .sequence tag items =>
    if isLocal tag || depth = 0 || !readable (depth - 1) items then none else some .other
  | .mapping tag members =>
    if isLocal tag || depth = 0 || !readableMembers (depth - 1) members then none
    else some .other

def readable (depth : Nat) : List Node → Bool
  | [] => true
  | n :: ns => (n.setting? depth).isSome && readable depth ns

def readableMembers (depth : Nat) : List (Node × Node) → Bool
  | [] => true
  | m :: ms => readableMember depth m && readableMembers depth ms

def readableMember (depth : Nat) : Node × Node → Bool
  | (k, v) => k.key?.isSome && (v.setting? depth).isSome

end

/-- The members of a mapping with what they say. -/
def settings? : List (Node × Node) → Option (List (List Char × Setting))
  | [] => some []
  | (k, v) :: ms =>
    match k.key?, v.setting? (depthLimit - 1), settings? ms with
    | some key, some s, some rest => some ((key, s) :: rest)
    | _, _, _ => none

end CircuitFixtures.Yaml

namespace CircuitFixtures.Layer

/-- The layer of a document. One without a node or with an empty one says nothing. -/
def ofDocument? : Yaml.Document → Option Layer
  | .nothing => some empty
  | .one (.mapping _ members) => (Yaml.settings? members).map ofValues
  | .one (.scalar _ plain cs) => if plain && cs.isEmpty then some empty else none
  | .one (.sequence ..) => none

/-- The layer of a file. -/
def ofBytes? (xs : List UInt8) : Option Layer :=
  match Utf8.decode xs with
  | .error _ => none
  | .ok cs => (Yaml.Document.ofText? cs).bind ofDocument?

end CircuitFixtures.Layer
