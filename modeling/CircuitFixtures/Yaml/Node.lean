import CircuitFixtures.Yaml.Token

/-!
# Nodes of a YAML text

A text holds one document, and a document one node: a scalar, a sequence or a mapping. An
alias stands for the node that last took its name; a node cannot be part of itself.

`Node.ofText?` reads the node of a text. A text with nothing in it, or with nothing but
comments, has none.
-/

namespace CircuitFixtures.Yaml

inductive Node where
  | scalar (tag : Option (List Char)) (plain : Bool) (text : List Char)
  | sequence (tag : Option (List Char)) (items : List Node)
  | mapping (tag : Option (List Char)) (members : List (Node × Node))
  deriving Repr

instance : Inhabited Node := ⟨.scalar none true []⟩

/-- The node of a place where nothing is written. -/
def Node.blank : Node := .scalar none true []

/-- What tag handles mean. -/
abbrev Handles := List (List Char × List Char)

/-- The handles that need no directive. -/
def commonHandles : Handles :=
  [(['!'], ['!']), (['!', '!'], "tag:yaml.org,2002:".toList)]

/-- A name, its number, and its node once that is complete. -/
structure Anchor where
  name : List Char
  number : Nat
  node : Option Node
  deriving Repr, Inhabited

/-- What is left to read, and the names given so far, latest first. -/
structure Rest where
  tokens : List Token
  anchors : List Anchor
  deriving Repr, Inhabited

namespace Rest

def next (r : Rest) : Option Token :=
  r.tokens.head?

/-- One of the tokens comes next. -/
def nextIn (r : Rest) (ts : List Token) : Bool :=
  r.next.any (fun t => ts.contains t)

def drop (r : Rest) : Rest :=
  { r with tokens := r.tokens.tail }

end Rest

/-- Tag and name in front of a node. -/
structure Properties where
  tag : Option (List Char)
  name : Option (List Char)
  deriving Repr

def resolveTag (handles : Handles) (handle suffix : List Char) : Option (List Char) :=
  if handle.isEmpty then some suffix
  else (handles.lookup handle).map (· ++ suffix)

/-- Takes a tag and a name, in either order. -/
def properties (handles : Handles) (r : Rest) : Option (Properties × Rest) :=
  match r.tokens with
  | .anchor name :: .tag handle suffix :: ts =>
    (resolveTag handles handle suffix).map (fun t => (⟨some t, some name⟩, { r with tokens := ts }))
  | .tag handle suffix :: .anchor name :: ts =>
    (resolveTag handles handle suffix).map (fun t => (⟨some t, some name⟩, { r with tokens := ts }))
  | .tag handle suffix :: ts =>
    (resolveTag handles handle suffix).map (fun t => (⟨some t, none⟩, { r with tokens := ts }))
  | .anchor name :: ts => some (⟨none, some name⟩, { r with tokens := ts })
  | _ => some (⟨none, none⟩, r)

/-- The tag of a scalar. A lone exclamation mark is none. -/
def scalarTag (tag : Option (List Char)) : Option (List Char) :=
  tag.filter (fun t => !t.isEmpty && t != ['!'])

mutual

/-- A node. In block style collections may begin, and `flush` ones too whose items are no
deeper than the key before them. -/
def node (handles : Handles) (block flush : Bool) : (fuel : Nat) → Rest → Option (Node × Rest)
  | 0, _ => none
  | fuel + 1, r =>
    match r.next with
    | some (.alias name) =>
      match r.anchors.find? (fun a => a.name == name) with
      | some ⟨_, _, some n⟩ => some (n, r.drop)
      | _ => none
    | _ =>
      match properties handles r with
      | none => none
      | some (p, r) =>
        match p.name with
        | none => content handles block flush p.tag false fuel r
        | some name =>
          let number := r.anchors.length
          let started : Rest := { r with anchors := ⟨name, number, none⟩ :: r.anchors }
          match content handles block flush p.tag true fuel started with
          | none => none
          | some (n, r) =>
            let close (a : Anchor) : Anchor :=
              if a.number = number then { a with node := some n } else a
            some (n, { r with anchors := r.anchors.map close })

/-- The node behind its tag and name. -/
def content (handles : Handles) (block flush : Bool) (tag : Option (List Char)) (named : Bool) :
    (fuel : Nat) → Rest → Option (Node × Rest)
  | 0, _ => none
  | fuel + 1, r =>
    match r.next with
    | some (.scalar plain text) => some (.scalar (scalarTag tag) plain text, r.drop)
    | some .flowSequence =>
      (flowItems handles true fuel r.drop).map (fun (ns, r) => (.sequence tag ns, r))
    | some .flowMapping =>
      (flowMembers handles true fuel r.drop).map (fun (ms, r) => (.mapping tag ms, r))
    | next =>
      if flush && next == some .blockEntry then
        (flushItems handles fuel r).map (fun (ns, r) => (.sequence tag ns, r))
      else if block && next == some .blockSequence then
        (blockItems handles fuel r.drop).map (fun (ns, r) => (.sequence tag ns, r))
      else if block && next == some .blockMapping then
        (blockMembers handles fuel r.drop).map (fun (ms, r) => (.mapping tag ms, r))
      else if tag.isSome || named then some (.scalar (scalarTag tag) true [], r)
      else none

/-- A node, unless one of the given tokens comes next. -/
def nodeUnless (handles : Handles) (block flush : Bool) (stops : List Token) :
    (fuel : Nat) → Rest → Option (Node × Rest)
  | 0, _ => none
  | fuel + 1, r => if r.nextIn stops then some (.blank, r) else node handles block flush fuel r

/-- The items of a block sequence, up to its end. -/
def blockItems (handles : Handles) : (fuel : Nat) → Rest → Option (List Node × Rest)
  | 0, _ => none
  | fuel + 1, r =>
    match r.next with
    | some .blockEnd => some ([], r.drop)
    | some .blockEntry =>
      match nodeUnless handles true false [.blockEntry, .blockEnd] fuel r.drop with
      | none => none
      | some (n, r) => (blockItems handles fuel r).map (fun (ns, r) => (n :: ns, r))
    | _ => none

/-- The items of a sequence that ends where no item follows. -/
def flushItems (handles : Handles) : (fuel : Nat) → Rest → Option (List Node × Rest)
  | 0, _ => none
  | fuel + 1, r =>
    if r.next != some .blockEntry then some ([], r)
    else
      match nodeUnless handles true false [.blockEntry, .key, .value, .blockEnd] fuel r.drop with
      | none => none
      | some (n, r) => (flushItems handles fuel r).map (fun (ns, r) => (n :: ns, r))

/-- The members of a block mapping, up to its end. -/
def blockMembers (handles : Handles) : (fuel : Nat) → Rest → Option (List (Node × Node) × Rest)
  | 0, _ => none
  | fuel + 1, r =>
    match r.next with
    | some .blockEnd => some ([], r.drop)
    | some .key =>
      match nodeUnless handles true true [.key, .value, .blockEnd] fuel r.drop with
      | none => none
      | some (k, r) =>
        match valueUnless handles true [.key, .value, .blockEnd] fuel r with
        | none => none
        | some (v, r) => (blockMembers handles fuel r).map (fun (ms, r) => ((k, v) :: ms, r))
    | _ => none

/-- The value behind a key, if there is one. -/
def valueUnless (handles : Handles) (block : Bool) (stops : List Token) :
    (fuel : Nat) → Rest → Option (Node × Rest)
  | 0, _ => none
  | fuel + 1, r =>
    if r.next == some .value then nodeUnless handles block block stops fuel r.drop
    else some (.blank, r)

/-- The items of a sequence in brackets, up to its end. An item may be a single member of a
mapping. -/
def flowItems (handles : Handles) (first : Bool) : (fuel : Nat) → Rest → Option (List Node × Rest)
  | 0, _ => none
  | fuel + 1, r =>
    if r.next == some .flowSequenceEnd then some ([], r.drop)
    else if !first && r.next != some .flowEntry then none
    else
      let r := if first then r else r.drop
      if r.next == some .flowSequenceEnd then some ([], r.drop)
      else if r.next == some .key then
        match nodeUnless handles false false [.value, .flowEntry, .flowSequenceEnd] fuel r.drop with
        | none => none
        | some (k, r) =>
          match valueUnless handles false [.flowEntry, .flowSequenceEnd] fuel r with
          | none => none
          | some (v, r) =>
            (flowItems handles false fuel r).map (fun (ns, r) => (.mapping none [(k, v)] :: ns, r))
      else
        match node handles false false fuel r with
        | none => none
        | some (n, r) => (flowItems handles false fuel r).map (fun (ns, r) => (n :: ns, r))

/-- The members of a mapping in braces, up to its end. -/
def flowMembers (handles : Handles) (first : Bool) :
    (fuel : Nat) → Rest → Option (List (Node × Node) × Rest)
  | 0, _ => none
  | fuel + 1, r =>
    if r.next == some .flowMappingEnd then some ([], r.drop)
    else if !first && r.next != some .flowEntry then none
    else
      let r := if first then r else r.drop
      if r.next == some .flowMappingEnd then some ([], r.drop)
      else if r.next == some .key then
        match nodeUnless handles false false [.value, .flowEntry, .flowMappingEnd] fuel r.drop with
        | none => none
        | some (k, r) =>
          match valueUnless handles false [.flowEntry, .flowMappingEnd] fuel r with
          | none => none
          | some (v, r) => (flowMembers handles false fuel r).map (fun (ms, r) => ((k, v) :: ms, r))
      else
        match node handles false false fuel r with
        | none => none
        | some (k, r) =>
          (flowMembers handles false fuel r).map (fun (ms, r) => ((k, .blank) :: ms, r))

end

/-! ## Documents -/

/-- The directives in front of a document, with the tokens behind them. No version but 1.1
and 1.2 is read, and nothing is said twice. -/
def directives (versioned : Bool) (handles : Handles) : List Token → Option (Handles × List Token)
  | .version major minor :: ts =>
    if versioned || major != 1 || !(minor == 1 || minor == 2) then none
    else directives true handles ts
  | .tagHandle handle meaning :: ts =>
    if (handles.lookup handle).isSome then none
    else directives versioned ((handle, meaning) :: handles) ts
  | ts => some (handles, ts)

/-- What a text holds. -/
inductive Document where
  | nothing
  | one (n : Node)
  deriving Repr

/-- The node of a document behind its start. -/
def document (handles : Handles) (ts : List Token) : Option Node :=
  match ts with
  | [] => some .blank
  | .documentEnd :: rest => if rest.all (· == .documentEnd) then some .blank else none
  | _ =>
    match node (handles ++ commonHandles) true false (8 * ts.length + 8) ⟨ts, []⟩ with
    | none => none
    | some (n, r) => if r.tokens.all (· == .documentEnd) then some n else none

/-- The document of a text that holds no more than one. -/
def Document.ofText? (cs : List Char) : Option Document :=
  match tokens cs with
  | none => none
  | some [] => some .nothing
  | some ts =>
    match directives false [] ts with
    | none => none
    | some (handles, .documentStart :: rest) => (document handles rest).map .one
    | some (handles, rest) =>
      if rest.length < ts.length then none else (document handles rest).map .one

end CircuitFixtures.Yaml
