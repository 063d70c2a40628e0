import CircuitFixtures.Yaml.Cursor
import CircuitFixtures.Text.Hex

/-!
# Scalars in a YAML text

Scalars are plain, in quotes, or blocks of lines. In the first two a single break reads as a
space, and of several breaks the first one is dropped; blanks around breaks do not count.
-/

namespace CircuitFixtures.Yaml

/-! ## Gaps -/

/-- Blanks and breaks between two words. -/
structure Gap where
  blanks : List Char
  /-- There has been a break. -/
  broken : Bool
  first : List Char
  more : List Char
  deriving Repr, DecidableEq

def Gap.empty : Gap := ⟨[], false, [], []⟩

/-- What a gap reads as. -/
def Gap.text (g : Gap) : List Char :=
  if !g.broken then g.blanks
  else if g.first = ['\n'] then (if g.more.isEmpty then [' '] else g.more)
  else g.first ++ g.more

/-- Takes blanks and breaks. Behind a break no tab may stand left of column `limit`. -/
def gapAfter (limit : Nat) (g : Gap) : (fuel : Nat) → Cursor → Option (Gap × Cursor)
  | 0, cursor => some (g, cursor)
  | fuel + 1, cursor =>
    match cursor.rest with
    | [] => some (g, cursor)
    | c :: _ =>
      if isBlank c then
        if !g.broken then gapAfter limit { g with blanks := g.blanks ++ [c] } fuel (cursor.skip 1)
        else if c = '\t' ∧ cursor.column < limit then none
        else gapAfter limit g fuel (cursor.skip 1)
      else if isBreak c then
        let g : Gap :=
          if g.broken then { g with more := g.more ++ cursor.breakChar }
          else ⟨[], true, cursor.breakChar, g.more⟩
        gapAfter limit g fuel cursor.skipBreak
      else some (g, cursor)

def gap (limit : Nat) (g : Gap) (cursor : Cursor) : Option (Gap × Cursor) :=
  gapAfter limit g cursor.rest.length cursor

/-! ## Plain scalars -/

/-- The length of a word. In brackets a word ends at brackets and commas, and a colon in
front of one of them is refused. -/
def wordLength (inFlow : Bool) : List Char → Option Nat
  | [] => some 0
  | c :: cs =>
    if isBlank c || isBreak c then some 0
    else if c = ':' && inFlow && (cs.head?.any [',', '?', '[', ']', '{', '}'].contains) then none
    else if c = ':' && endsWord cs then some 0
    else if inFlow && [',', '[', ']', '{', '}'].contains c then some 0
    else (wordLength inFlow cs).map (· + 1)

/-- A scalar with the cursor behind it, and whether a break has been taken with it. -/
structure Plain where
  text : List Char
  broken : Bool
  cursor : Cursor
  deriving Repr, DecidableEq

/-- Takes words and the gaps between them; lines go on from column `limit` on. -/
def plainAfter (inFlow : Bool) (limit : Nat) (text : List Char) (before : Gap) :
    (fuel : Nat) → Cursor → Option Plain
  | 0, _ => none
  | fuel + 1, cursor =>
    if cursor.atDocumentMark || cursor.rest.head? == some '#' then
      some ⟨text, before.broken, cursor⟩
    else
      match wordLength inFlow cursor.rest with
      | none => none
      | some 0 => some ⟨text, before.broken, cursor⟩
      | some n =>
        let text := text ++ before.text ++ cursor.rest.take n
        let behind := cursor.skip n
        match behind.rest with
        | [] => some ⟨text, false, behind⟩
        | c :: _ =>
          if !isBlank c && !isBreak c then some ⟨text, false, behind⟩
          else
            match gap limit .empty behind with
            | none => none
            | some (g, cursor) =>
              if !inFlow && cursor.column < limit then some ⟨text, g.broken, cursor⟩
              else plainAfter inFlow limit text g fuel cursor

def plain (inFlow : Bool) (limit : Nat) (cursor : Cursor) : Option Plain :=
  plainAfter inFlow limit [] .empty (cursor.rest.length + 1) cursor

/-! ## Quoted scalars -/

/-- A character by its number in hexadecimal digits. -/
def numberEscape (count : Nat) (cs : List Char) : Option Char :=
  if cs.length < count then none
  else
    match Hex.decode (cs.take count) with
    | .error _ => none
    | .ok n => if h : n.isValidChar then some (Char.ofNatAux n h) else none

/-- The character of an escape behind its backslash, with the length of the escape. -/
def escapeChar : List Char → Option (Char × Nat)
  | '0' :: _ => some ('\x00', 1)
  | 'a' :: _ => some ('\x07', 1)
  | 'b' :: _ => some ('\x08', 1)
  | 't' :: _ => some ('\t', 1)
  | '\t' :: _ => some ('\t', 1)
  | 'n' :: _ => some ('\n', 1)
  | 'v' :: _ => some ('\x0b', 1)
  | 'f' :: _ => some ('\x0c', 1)
  | 'r' :: _ => some ('\r', 1)
  | 'e' :: _ => some ('\x1b', 1)
  | ' ' :: _ => some (' ', 1)
  | '"' :: _ => some ('"', 1)
  | '/' :: _ => some ('/', 1)
  | '\\' :: _ => some ('\\', 1)
  | 'N' :: _ => some ('\x85', 1)
  | '_' :: _ => some ('\xa0', 1)
  | 'L' :: _ => some ('\u2028', 1)
  | 'P' :: _ => some ('\u2029', 1)
  | 'x' :: cs => (numberEscape 2 cs).map (·, 3)
  | 'u' :: cs => (numberEscape 4 cs).map (·, 5)
  | 'U' :: cs => (numberEscape 8 cs).map (·, 9)
  | _ => none

/-- Takes the characters of a word in quotes, and says whether a break is escaped. -/
def quotedWord (single : Bool) (text : List Char) :
    (fuel : Nat) → Cursor → Option (List Char × Bool × Cursor)
  | 0, _ => none
  | fuel + 1, cursor =>
    match cursor.rest with
    | [] => some (text, false, cursor)
    | c :: cs =>
      if isBlank c || isBreak c then some (text, false, cursor)
      else if single then
        if c = '\'' then
          if cs.head? == some '\'' then quotedWord single (text ++ [c]) fuel (cursor.skip 2)
          else some (text, false, cursor)
        else quotedWord single (text ++ [c]) fuel (cursor.skip 1)
      else if c = '"' then some (text, false, cursor)
      else if c = '\\' then
        if !cs.isEmpty && endsLine cs then some (text, true, (cursor.skip 1).skipBreak)
        else
          match escapeChar cs with
          | none => none
          | some (e, count) => quotedWord single (text ++ [e]) fuel (cursor.skip (1 + count))
      else quotedWord single (text ++ [c]) fuel (cursor.skip 1)

/-- Takes words and gaps up to the closing quote. -/
def quotedAfter (single : Bool) (text : List Char) :
    (fuel : Nat) → Cursor → Option (List Char × Cursor)
  | 0, _ => none
  | fuel + 1, cursor =>
    if cursor.atDocumentMark || cursor.rest.isEmpty then none
    else
      match quotedWord single text (cursor.rest.length + 1) cursor with
      | none => none
      | some (text, escaped, cursor) =>
        if cursor.rest.head? == some (if single then '\'' else '"') then
          some (text, cursor.skip 1)
        else
          match gap 0 { Gap.empty with broken := escaped } cursor with
          | none => none
          | some (g, cursor) => quotedAfter single (text ++ g.text) fuel cursor

/-- The scalar behind an opening quote. -/
def quoted (single : Bool) (cursor : Cursor) : Option (List Char × Cursor) :=
  quotedAfter single [] (cursor.rest.length + 1) cursor

/-! ## Block scalars -/

/-- What happens to the breaks at the end of a block. -/
inductive Chomp where
  | strip
  | clip
  | keep
  deriving Repr, DecidableEq

structure BlockHeader where
  chomp : Chomp
  /-- How much deeper than its surroundings the block is, if that is said. -/
  deeper : Option Nat
  deriving Repr, DecidableEq

def chompMark (c : Char) : Option Chomp :=
  if c = '+' then some .keep else if c = '-' then some .strip else none

/-- The marks behind the sign of a block, in either order. -/
def blockHeader (cs : List Char) : Option (BlockHeader × Nat) :=
  match cs with
  | [] => some (⟨.clip, none⟩, 0)
  | c :: cs =>
    match chompMark c with
    | some chomp =>
      match cs with
      | d :: _ =>
        if d = '0' then none
        else if d.isDigit then some (⟨chomp, some (d.toNat - 48)⟩, 2)
        else some (⟨chomp, none⟩, 1)
      | [] => some (⟨chomp, none⟩, 1)
    | none =>
      if c = '0' then none
      else if c.isDigit then
        match cs.head?.bind chompMark with
        | some chomp => some (⟨chomp, some (c.toNat - 48)⟩, 2)
        | none => some (⟨.clip, some (c.toNat - 48)⟩, 1)
      else some (⟨.clip, none⟩, 0)

/-- Takes the spaces in front of a line, up to column `indent` where one is given. -/
def indentSpaces (indent : Option Nat) (cursor : Cursor) : Cursor :=
  let spaces := (cursor.rest.takeWhile (· == ' ')).length
  match indent with
  | none => cursor.skip spaces
  | some n => cursor.skip (min spaces (n - cursor.column))

/-- Takes empty lines and the indentation of the line behind them. Gives the breaks, the
greatest column reached and the cursor. -/
def emptyLines (indent : Option Nat) (breaks : List Char) (deepest : Nat) :
    (fuel : Nat) → Cursor → Option (List Char × Nat × Cursor)
  | 0, _ => none
  | fuel + 1, cursor =>
    let cursor := indentSpaces indent cursor
    let deepest := max deepest cursor.column
    let short := match indent with
      | none => true
      | some n => decide (cursor.column < n)
    match cursor.rest with
    | [] => some (breaks, deepest, cursor)
    | c :: _ =>
      if short && c == '\t' then none
      else if isBreak c then
        emptyLines indent (breaks ++ cursor.breakChar) deepest fuel cursor.skipBreak
      else some (breaks, deepest, cursor)

/-- The lines of a block read so far. -/
structure BlockLines where
  text : List Char
  /-- The break behind the last line. -/
  last : List Char
  /-- The breaks behind that. -/
  breaks : List Char
  /-- The last line starts with a blank. -/
  blank : Bool
  deriving Repr, DecidableEq

/-- Takes the lines at column `indent`. In a folded block the break between two lines that
do not start with a blank reads as a space. -/
def blockLines (folded : Bool) (indent : Nat) (b : BlockLines) :
    (fuel : Nat) → Cursor → Option (BlockLines × Cursor)
  | 0, _ => none
  | fuel + 1, cursor =>
    if cursor.column ≠ indent ∨ cursor.rest.isEmpty then some (b, cursor)
    else
      let blank := cursor.rest.head?.any isBlank
      let joined :=
        if folded && b.last == ['\n'] && !b.blank && !blank then
          (if b.breaks.isEmpty then [' '] else [])
        else b.last
      let line := cursor.rest.takeWhile (fun c => !isBreak c)
      let behind := cursor.skip line.length
      match emptyLines (some indent) [] 0 (cursor.rest.length + 1) behind.skipBreak with
      | none => none
      | some (breaks, _, next) =>
        blockLines folded indent
          ⟨b.text ++ joined ++ b.breaks ++ line, behind.breakChar, breaks, blank⟩ fuel next

def BlockLines.chomped (b : BlockLines) : Chomp → List Char
  | .strip => b.text
  | .clip => b.text ++ b.last
  | .keep => b.text ++ b.last ++ b.breaks

/-- The block behind its sign, inside a collection at column `outer`. -/
def block (folded : Bool) (outer : Option Nat) (cursor : Cursor) : Option (List Char × Cursor) :=
  match blockHeader cursor.rest with
  | none => none
  | some (header, count) =>
    let cursor := (cursor.skip count).skipWhile isBlank
    let cursor :=
      if cursor.rest.head? == some '#' then cursor.skipWhile (fun c => !isBreak c) else cursor
    if !endsLine cursor.rest then none
    else
      let cursor := cursor.skipBreak
      let given := header.deeper.map (fun n => outer.getD 0 + n)
      match emptyLines given [] 0 (cursor.rest.length + 1) cursor with
      | none => none
      | some (breaks, deepest, cursor) =>
        let indent := given.getD (max 1 (max deepest (match outer with
          | none => 0
          | some n => n + 1)))
        match blockLines folded indent ⟨[], [], breaks, false⟩ (cursor.rest.length + 1) cursor with
        | none => none
        | some (b, cursor) => some (b.chomped header.chomp, cursor)

end CircuitFixtures.Yaml
