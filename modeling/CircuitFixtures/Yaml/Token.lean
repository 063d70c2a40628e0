import CircuitFixtures.Yaml.Scalar

/-!
# Tokens of a YAML text

A token is a mark or a scalar. Collections in block style have no marks of their own: they
begin where a line is deeper than the lines around it, and end where one is not.

The key of a member is known as such only at the colon behind it. A place where a key may
have begun is kept as a `Candidate`; at the colon the tokens for the key, and for a mapping
that begins with it, are put in at that place. A candidate is given up at the end of its
line.
-/

namespace CircuitFixtures.Yaml

inductive Token where
  | version (major minor : Nat)
  | tagHandle (handle meaning : List Char)
  | documentStart
  | documentEnd
  | blockSequence
  | blockMapping
  | blockEnd
  | flowSequence
  | flowSequenceEnd
  | flowMapping
  | flowMappingEnd
  | blockEntry
  | flowEntry
  | key
  | value
  | alias (name : List Char)
  | anchor (name : List Char)
  | tag (handle suffix : List Char)
  | scalar (plain : Bool) (text : List Char)
  deriving Repr, DecidableEq

/-- A place where a key may have begun. -/
structure Candidate where
  /-- Nothing but a key can stand here. -/
  required : Bool
  /-- How many tokens stand before it. -/
  position : Nat
  index : Nat
  line : Nat
  column : Nat
  deriving Repr, DecidableEq

/-- What has been read of a text. -/
structure Reading where
  cursor : Cursor
  tokens : Array Token
  /-- The columns of the open block collections, innermost first. -/
  indents : List Nat
  /-- A key may begin here. -/
  keyAllowed : Bool
  candidate : Option Candidate
  /-- The candidates outside of the open brackets, innermost first. -/
  outer : List (Option Candidate)
  deriving Repr, DecidableEq

namespace Reading

def ofChars (cs : List Char) : Reading :=
  ⟨.ofChars cs, #[], [], true, none, []⟩

def inFlow (r : Reading) : Bool :=
  !r.outer.isEmpty

def add (r : Reading) (t : Token) : Reading :=
  { r with tokens := r.tokens.push t }

/-- Puts a token in behind the first `position` tokens. -/
def insert (r : Reading) (position : Nat) (t : Token) : Reading :=
  { r with
    tokens := (r.tokens.extract 0 position).push t ++ r.tokens.extract position r.tokens.size }

/-! ## Collections by depth -/

/-- Begins a block collection if the column is deeper than the open ones. -/
def openBlock (r : Reading) (column position : Nat) (t : Token) : Reading :=
  let deeper := match r.indents with
    | [] => true
    | i :: _ => decide (i < column)
  if r.inFlow || !deeper then r
  else { (r.insert position t) with indents := column :: r.indents }

/-- Ends the block collections that `ends` accepts. -/
def closeIndents (ends : Nat → Bool) (tokens : Array Token) :
    List Nat → Array Token × List Nat
  | [] => (tokens, [])
  | i :: is => if ends i then closeIndents ends (tokens.push .blockEnd) is else (tokens, i :: is)

/-- Ends the block collections that the column is not deep enough for. -/
def closeBlocks (r : Reading) (column : Nat) : Reading :=
  if r.inFlow then r
  else
    let (tokens, indents) := closeIndents (fun i => column < i) r.tokens r.indents
    { r with tokens := tokens, indents := indents }

/-- Ends all block collections. -/
def closeAll (r : Reading) : Reading :=
  if r.inFlow then r
  else
    let (tokens, indents) := closeIndents (fun _ => true) r.tokens r.indents
    { r with tokens := tokens, indents := indents }

/-! ## Candidates -/

/-- Gives the candidate up. A required one has to have been a key. -/
def dropCandidate (r : Reading) : Option Reading :=
  if r.candidate.any (·.required) then none else some { r with candidate := none }

/-- Takes the next token for the possible begin of a key. -/
def saveCandidate (r : Reading) : Option Reading :=
  if !r.keyAllowed then some r
  else
    match r.dropCandidate with
    | none => none
    | some r =>
      let c := r.cursor
      let required := !r.inFlow && r.indents.head? == some c.column
      some { r with candidate := some ⟨required, r.tokens.size, c.index, c.line, c.column⟩ }

/-- How long a key may be. -/
def keyLimit : Nat := 1024

/-- The candidate has been left behind. -/
def isStale (cursor : Cursor) (k : Candidate) : Bool :=
  k.line < cursor.line || k.index + keyLimit < cursor.index

def fresh (cursor : Cursor) (k : Option Candidate) : Option Candidate :=
  k.filter (fun k => !isStale cursor k)

/-- Gives up the candidates that have been left behind. -/
def dropStale (r : Reading) : Option Reading :=
  if (r.candidate :: r.outer).any (·.any (fun k => isStale r.cursor k && k.required)) then none
  else
    some { r with
      candidate := fresh r.cursor r.candidate
      outer := r.outer.map (fresh r.cursor) }

/-! ## Blanks and comments -/

/-- Goes to the next token. At the begin of a line tabs are no blanks, outside of
brackets. -/
def toToken (r : Reading) : (fuel : Nat) → Reading
  | 0 => r
  | fuel + 1 =>
    let tabs := r.inFlow || !r.keyAllowed
    let cursor := r.cursor.skipWhile (fun c => c == ' ' || (tabs && c == '\t'))
    let cursor :=
      if cursor.rest.head? == some '#' then cursor.skipWhile (fun c => !isBreak c) else cursor
    match cursor.rest with
    | [] => { r with cursor := cursor }
    | c :: _ =>
      if isBreak c then
        toToken { r with cursor := cursor.skipBreak, keyAllowed := r.keyAllowed || !r.inFlow } fuel
      else { r with cursor := cursor }

/-! ## Directives and tags -/

def isUriChar (c : Char) : Bool :=
  isName c || ";/?:@&=+$.!~*'()".toList.contains c

/-- Two hexadecimal digits behind each percent sign. -/
def escapesFit : List Char → Bool
  | '%' :: a :: b :: cs =>
    (Hex.valueOf? a).isSome && (Hex.valueOf? b).isSome && escapesFit cs
  | '%' :: _ => false
  | _ :: cs => escapesFit cs
  | [] => true

/-- The part of a tag that is written as an address, and its length. -/
def uri (whole : Bool) (cs : List Char) : Option (List Char) :=
  let text := cs.takeWhile
    (fun c => isUriChar c || c == '%' || (whole && (c == ',' || c == '[' || c == ']')))
  if escapesFit text then some text else none

/-- An exclamation mark and a name, with the mark that may close it. -/
def tagHandle (cs : List Char) : List Char :=
  match cs with
  | '!' :: cs =>
    let name := cs.takeWhile isName
    if (cs.drop name.length).head? == some '!' then '!' :: name ++ ['!'] else '!' :: name
  | _ => []

/-- A number of at most nine digits, and its length. -/
def versionNumber (cs : List Char) : Option (Nat × Nat) :=
  let digits := cs.takeWhile Char.isDigit
  if digits.isEmpty || 9 < digits.length then none
  else some (digits.foldl (fun n c => 10 * n + (c.toNat - 48)) 0, digits.length)

/-- The token of a directive behind its name, with the cursor behind it. -/
def directiveBody (name : List Char) (cursor : Cursor) : Option (Token × Cursor) :=
  if name = "YAML".toList then
    let cursor := cursor.skipWhile isBlank
    match versionNumber cursor.rest with
    | none => none
    | some (major, n) =>
      let cursor := cursor.skip n
      if cursor.rest.head? != some '.' then none
      else
        match versionNumber cursor.rest.tail with
        | none => none
        | some (minor, n) => some (.version major minor, cursor.skip (1 + n))
  else if name = "TAG".toList then
    let cursor := cursor.skipWhile isBlank
    let handle := tagHandle cursor.rest
    if handle.isEmpty ||
        (handle != ['!'] && !(2 ≤ handle.length && handle.getLast? == some '!')) then none
    else
      let cursor := cursor.skip handle.length
      if !cursor.rest.head?.any isBlank then none
      else
        let cursor := cursor.skipWhile isBlank
        match uri true cursor.rest with
        | none => none
        | some [] => none
        | some meaning =>
          let cursor := cursor.skip meaning.length
          if endsWord cursor.rest then some (.tagHandle handle meaning, cursor) else none
  else none

def directive (cursor : Cursor) : Option (Token × Cursor) :=
  let name := (cursor.rest.drop 1).takeWhile isName
  let cursor := cursor.skip (1 + name.length)
  if name.isEmpty || !endsWord cursor.rest then none
  else
    match directiveBody name cursor with
    | none => none
    | some (t, cursor) =>
      let cursor := cursor.skipWhile isBlank
      let cursor :=
        if cursor.rest.head? == some '#' then cursor.skipWhile (fun c => !isBreak c) else cursor
      if endsLine cursor.rest then some (t, cursor.skipBreak) else none

/-- The handle and the suffix of a tag, and its length. -/
def tagParts (cs : List Char) : Option (List Char × List Char × Nat) :=
  match cs with
  | '!' :: '<' :: rest =>
    match uri true rest with
    | none => none
    | some [] => none
    | some suffix =>
      if (rest.drop suffix.length).head? == some '>' then some ([], suffix, 3 + suffix.length)
      else none
  | _ =>
    let handle := tagHandle cs
    if 2 ≤ handle.length && handle.getLast? == some '!' then
      match uri false (cs.drop handle.length) with
      | none => none
      | some [] => none
      | some suffix => some (handle, suffix, handle.length + suffix.length)
    else
      match uri false cs.tail with
      | none => none
      | some [] => some ([], ['!'], 1)
      | some suffix => some (['!'], suffix, 1 + suffix.length)

/-! ## One token -/

/-- A name behind the sign of an anchor or an alias. -/
def anchorName (cs : List Char) : Option (List Char) :=
  let name := cs.takeWhile isName
  let rest := cs.drop name.length
  if name.isEmpty then none
  else if endsWord rest || rest.head?.any ['?', ':', ',', ']', '}', '%', '@', '\x60'].contains then
    some name
  else none

/-- A mark of `count` characters. -/
def mark (r : Reading) (count : Nat) (t : Token) : Reading :=
  { r.add t with cursor := r.cursor.skip count }

/-- A mark that begins a collection in brackets. -/
def openFlow (r : Reading) (t : Token) : Option Reading :=
  match r.saveCandidate with
  | none => none
  | some r => some { r.mark 1 t with
      candidate := none, outer := r.candidate :: r.outer, keyAllowed := true }

def closeFlow (r : Reading) (t : Token) : Option Reading :=
  match r.dropCandidate with
  | none => none
  | some r =>
    let r := { r.mark 1 t with keyAllowed := false }
    match r.outer with
    | [] => some r
    | k :: ks => some { r with candidate := k, outer := ks }

/-- The mark in front of an item or a key in block style. -/
def blockMark (r : Reading) (collection t : Token) (allowed : Bool) : Option Reading :=
  if !r.inFlow && !r.keyAllowed then none
  else
    let r := r.openBlock r.cursor.column r.tokens.size collection
    match r.dropCandidate with
    | none => none
    | some r => some { r.mark 1 t with keyAllowed := allowed }

/-- The colon. With a candidate it makes that a key. -/
def colon (r : Reading) : Option Reading :=
  match r.candidate with
  | some k =>
    let r := (r.insert k.position .key).openBlock k.column k.position .blockMapping
    some { r.mark 1 .value with candidate := none, keyAllowed := false }
  | none =>
    if r.inFlow then some { r.mark 1 .value with keyAllowed := false }
    else if !r.keyAllowed then none
    else
      let r := r.openBlock r.cursor.column r.tokens.size .blockMapping
      some { r.mark 1 .value with keyAllowed := true }

/-- A token that may begin a key, with the cursor behind it. -/
def keyPart (r : Reading) (result : Option (Token × Cursor)) : Option Reading :=
  match r.saveCandidate, result with
  | some r, some (t, cursor) => some { r.add t with cursor := cursor, keyAllowed := false }
  | _, _ => none

/-- A mark that stands outside of all collections. -/
def documentMark (r : Reading) (t : Token) : Option Reading :=
  match r.closeAll.dropCandidate with
  | none => none
  | some r => some { r.mark 3 t with keyAllowed := false }

def directiveLine (r : Reading) : Option Reading :=
  match r.closeAll.dropCandidate with
  | none => none
  | some r =>
    match directive r.cursor with
    | none => none
    | some (t, cursor) => some { r.add t with cursor := cursor, keyAllowed := false }

def tagToken (r : Reading) : Option (Token × Cursor) :=
  match tagParts r.cursor.rest with
  | none => none
  | some (handle, suffix, n) =>
    let cursor := r.cursor.skip n
    if endsWord cursor.rest || (r.inFlow && cursor.rest.head? == some ',') then
      some (.tag handle suffix, cursor)
    else none

def anchorToken (r : Reading) (token : List Char → Token) : Option (Token × Cursor) :=
  (anchorName r.cursor.rest.tail).map
    (fun name => (token name, r.cursor.skip (1 + name.length)))

def blockToken (r : Reading) (folded : Bool) : Option Reading :=
  match r.dropCandidate with
  | none => none
  | some r =>
    match block folded r.indents.head? (r.cursor.skip 1) with
    | none => none
    | some (text, cursor) =>
      some { r.add (.scalar false text) with cursor := cursor, keyAllowed := true }

def quotedToken (r : Reading) (single : Bool) : Option (Token × Cursor) :=
  (quoted single (r.cursor.skip 1)).map (fun q => (.scalar false q.1, q.2))

def plainToken (r : Reading) : Option Reading :=
  match r.saveCandidate with
  | none => none
  | some r =>
    let limit := match r.indents with
      | [] => 0
      | i :: _ => i + 1
    match plain r.inFlow limit r.cursor with
    | none => none
    | some p => some { r.add (.scalar true p.text) with cursor := p.cursor, keyAllowed := p.broken }

/-- The characters that begin no plain scalar, unless more than a blank follows. -/
def isIndicator (c : Char) : Bool :=
  "-?:,[]{}#&*!|>'\"%@\x60".toList.contains c

/-- The next token, which starts with the character `c` in front of `cs`. -/
def token (r : Reading) (c : Char) (cs : List Char) : Option Reading :=
  let alone := endsWord cs
  if r.cursor.column = 0 ∧ c = '%' then r.directiveLine
  else if r.cursor.atDocumentMark then
    r.documentMark (if c = '-' then .documentStart else .documentEnd)
  else if c = '[' then r.openFlow .flowSequence
  else if c = '{' then r.openFlow .flowMapping
  else if c = ']' then r.closeFlow .flowSequenceEnd
  else if c = '}' then r.closeFlow .flowMappingEnd
  else if c = ',' then
    r.dropCandidate.map (fun r => { r.mark 1 .flowEntry with keyAllowed := true })
  else if c = '-' ∧ alone then r.blockMark .blockSequence .blockEntry true
  else if c = '?' ∧ (r.inFlow ∨ alone) then r.blockMark .blockMapping .key (!r.inFlow)
  else if c = ':' ∧ (r.inFlow ∨ alone) then r.colon
  else if c = '*' then r.keyPart (r.anchorToken .alias)
  else if c = '&' then r.keyPart (r.anchorToken .anchor)
  else if c = '!' then r.keyPart r.tagToken
  else if c = '|' ∧ !r.inFlow then r.blockToken false
  else if c = '>' ∧ !r.inFlow then r.blockToken true
  else if c = '\'' then r.keyPart (r.quotedToken true)
  else if c = '"' then r.keyPart (r.quotedToken false)
  else if (!isBlank c && !isIndicator c) || (c == '-' && !cs.head?.any isBlank) ||
      (!r.inFlow && (c == '?' || c == ':') && !alone) then r.plainToken
  else none

/-- Reads tokens up to the end of the text. Each takes at least one character. -/
def run (r : Reading) : (fuel : Nat) → Option (Array Token)
  | 0 => none
  | fuel + 1 =>
    match (r.toToken (r.cursor.rest.length + 1)).dropStale with
    | none => none
    | some r =>
      let r := r.closeBlocks r.cursor.column
      match r.cursor.rest with
      | [] => r.closeAll.dropCandidate.map (·.tokens)
      | c :: cs =>
        match r.token c cs with
        | none => none
        | some r => run r fuel

end Reading

/-- Characters that a text may hold. -/
def isAllowed (c : Char) : Bool :=
  let n := c.toNat
  n == 9 || n == 10 || n == 13 || (32 ≤ n && n ≤ 0x7E) || n == 0x85 ||
    (0xA0 ≤ n && n ≤ 0xFFFD && n != 0xFEFF) || 0x10000 ≤ n

/-- The tokens of a text, which may begin with a byte order mark. -/
def tokens (cs : List Char) : Option (List Token) :=
  let cs := match cs with
    | '\uFEFF' :: cs => cs
    | cs => cs
  if cs.all isAllowed then
    ((Reading.ofChars cs).run (cs.length + 1)).map (·.toList)
  else none

end CircuitFixtures.Yaml
