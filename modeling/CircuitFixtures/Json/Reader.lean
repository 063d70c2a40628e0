import CircuitFixtures.Index.Map
import CircuitFixtures.Json.Scanner

/-!
# Reading JSON of a known shape

Readers for texts, field elements and objects with indices as keys. Each reader takes a
value from the front of a text. `whole` reads a value that makes up the whole text.

Where an object has several members of one key, the last one counts.
-/

namespace CircuitFixtures.Json

abbrev Reader (α : Type) := List Char → Result α

/-- A value of another kind than expected. -/
def wrongType {α : Type} (expected : String) (cs : List Char) : Except Fault α :=
  let refuse (found : Found) (cs : List Char) : Except Fault α :=
    failAt (.wrongType found expected) cs
  match cs with
  | 'n' :: cs =>
    match word ['u', 'l', 'l'] cs with
    | .ok ((), cs) => refuse .null cs
    | .error e => .error e
  | 't' :: cs =>
    match word ['r', 'u', 'e'] cs with
    | .ok ((), cs) => refuse (.bool true) cs
    | .error e => .error e
  | 'f' :: cs =>
    match word ['a', 'l', 's', 'e'] cs with
    | .ok ((), cs) => refuse (.bool false) cs
    | .error e => .error e
  | '"' :: cs =>
    match textTail cs with
    | .ok (text, cs) => refuse (.text text) cs
    | .error e => .error e
  | '[' :: _ => refuse .list cs
  | '{' :: _ => refuse .object cs
  | c :: _ =>
    if c = '-' || c.isDigit then
      match number cs with
      | .ok (n, cs) => refuse n.found cs
      | .error e => .error e
    else failNext .expectedValue cs
  | [] => failNext .expectedValue []

/-- A text. -/
def text : Reader (List Char) := fun cs =>
  match skipBlanks cs with
  | [] => failNext .endInValue []
  | '"' :: cs => textTail cs
  | cs => wrongType "a string" cs

/-- A field element, as its digits with or without a leading `0x`. -/
def field : Reader Field := fun cs =>
  match text cs with
  | .error e => .error e
  | .ok (digits, rest) =>
    match Field.ofChars digits with
    | .ok x => .ok (x, rest)
    | .error e => failUnplaced (.field e) rest

/-- An index as the key of a member, behind its opening quote. -/
def indexKey : Reader Index := fun cs =>
  let read : Except Fault (Number × List Char) :=
    match cs with
    | c :: _ => if c = '-' || c.isDigit then number cs else failAt .keyNotNumber cs
    | [] => failAt .keyNotNumber []
  match read with
  | .error e => .error e
  | .ok (.float negative x, cs) => failAt (.wrongType (.float negative x) "u32") cs
  | .ok (.integer n, cs) =>
    if n < 0 ∨ 4294967295 < n then failAt (.wrongValue (.integer n) "u32") cs
    else
      match cs with
      | '"' :: cs => .ok (UInt32.ofNat n.toNat, cs)
      | cs => failNext .expectedQuote cs

/-- A text as the key of a member, behind its opening quote. -/
def textKey : Reader (List Char) := textTail

/-- Goes to the key of the next member, behind its opening quote, or says that there is
none and stops before the brace. -/
def nextKey (first : Bool) (cs : List Char) : Result Bool :=
  match skipBlanks cs with
  | [] => failNext .endInObject []
  | '}' :: cs => .ok (false, '}' :: cs)
  | c :: cs =>
    if first then
      if c = '"' then .ok (true, cs) else failNext .keyNotText (c :: cs)
    else if c = ',' then
      match skipBlanks cs with
      | '"' :: cs => .ok (true, cs)
      | '}' :: cs => failNext .trailingComma ('}' :: cs)
      | [] => failNext .endInValue []
      | cs => failNext .keyNotText cs
    else failNext .expectedObjectEnd (c :: cs)

/-- Takes the colon behind a key. -/
def colon (cs : List Char) : Result Unit :=
  match skipBlanks cs with
  | ':' :: cs => .ok ((), cs)
  | [] => failNext .endInObject []
  | cs => failNext .expectedColon cs

/-- The value of a member, behind its key. -/
def memberValue {α : Type} (value : Reader α) : Reader α := fun cs =>
  match colon cs with
  | .error e => .error e
  | .ok ((), cs) => value cs

/-- Places a fault of the value behind the brace that closes the object, if it stands
there. -/
def placeInObject (e : Fault) : Fault :=
  match e.place with
  | .left _ => e
  | .unplaced rest =>
    let rest := match skipBlanks rest with
      | '}' :: cs => cs
      | cs => cs
    ⟨e.cause, .left (Utf8.size rest)⟩

/-- Places a fault of the value behind the bracket that closes the list, or a comma that
stands there. -/
def placeInList (e : Fault) : Fault :=
  match e.place with
  | .left _ => e
  | .unplaced rest =>
    let rest := match skipBlanks rest with
      | ']' :: cs => cs
      | ',' :: cs => skipBlanks cs
      | cs => cs
    ⟨e.cause, .left (Utf8.size rest)⟩

/-- The members of an object behind its brace, up to the one that closes it. They are
added to `m`, and each takes at least one character. -/
def indexMembers {α : Type} (value : Reader α) (first : Bool) (m : IndexMap α)
    (cs : List Char) : Result (IndexMap α) :=
  match nextKey first cs with
  | .error e => .error e
  | .ok (false, cs) => .ok (m, cs)
  | .ok (true, cs1) =>
    match indexKey cs1 with
    | .error e => .error e
    | .ok (i, cs2) =>
      match memberValue value cs2 with
      | .error e => .error e
      | .ok (x, cs3) =>
        if cs3.length < cs.length then indexMembers value false (m.insert i x) cs3
        else failAt .endInObject cs3
termination_by cs.length

/-- An object with indices as keys. -/
def indexObject {α : Type} (value : Reader α) : Reader (IndexMap α) := fun cs =>
  match skipBlanks cs with
  | [] => failNext .endInValue []
  | '{' :: cs =>
    match indexMembers value true .empty cs with
    | .ok (m, cs) => .ok (m, cs.tail)
    | .error e => .error (placeInObject e)
  | cs => wrongType "a map" cs

/-- Goes to the next item of a list, or says that there is none and stops before the
bracket. -/
def nextItem (first : Bool) (cs : List Char) : Result Bool :=
  match skipBlanks cs with
  | [] => failNext .endInList []
  | ']' :: cs => .ok (false, ']' :: cs)
  | c :: cs =>
    if first then .ok (true, c :: cs)
    else if c = ',' then
      match skipBlanks cs with
      | ']' :: cs => failNext .trailingComma (']' :: cs)
      | [] => failNext .endInValue []
      | cs => .ok (true, cs)
    else failNext .expectedListEnd (c :: cs)

/-- Closes a list. -/
def listEnd (cs : List Char) : Result Unit :=
  match skipBlanks cs with
  | ']' :: cs => .ok ((), cs)
  | ',' :: cs =>
    match skipBlanks cs with
    | ']' :: cs => failNext .trailingComma (']' :: cs)
    | cs => failNext .trailing cs
  | [] => failNext .endInList []
  | cs => failNext .trailing cs

/-- A value that makes up the whole text. -/
def whole {α : Type} (read : Reader α) (cs : List Char) : Except Fault α :=
  match read cs with
  | .error e => .error e
  | .ok (x, cs) =>
    match skipBlanks cs with
    | [] => .ok x
    | cs => failNext .trailing cs

end CircuitFixtures.Json

namespace CircuitFixtures

/-- The field element that makes up a JSON text. -/
def Field.ofJson (text : String) : Except Json.Fault Field :=
  Json.whole Json.field text.toList

end CircuitFixtures
