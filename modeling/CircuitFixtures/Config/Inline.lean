import CircuitFixtures.Config.Setting
import CircuitFixtures.Text.Blank
import CircuitFixtures.Text.Hex
import CircuitFixtures.Yaml.Resolve

/-!
# Values on one line

A variable of the environment holds a truth value, a number, a text in double quotes, a
character in single quotes, a list in brackets or a table in braces. Whatever is none of
these is a text as it stands.
-/

namespace CircuitFixtures.Inline

/-- Blanks between the parts of a value. -/
def isGap (c : Char) : Bool :=
  c == ' ' || c == '\t' || c == '\n'

def skipGap (cs : List Char) : List Char :=
  cs.dropWhile isGap

def isSeparator (c : Char) : Bool :=
  [',', '{', '}', '[', ']'].contains c

/-- A character in quotes by its number. -/
def numberEscape (count : Nat) (cs : List Char) : Option (Char × List Char) :=
  if cs.length < count then none
  else
    match Hex.decode (cs.take count) with
    | .error _ => none
    | .ok n => if h : n.isValidChar then some (Char.ofNatAux n h, cs.drop count) else none

/-- The character of an escape, behind the backslash. -/
def escape : List Char → Option (Char × List Char)
  | '"' :: cs => some ('"', cs)
  | '\\' :: cs => some ('\\', cs)
  | 'b' :: cs => some ('\x08', cs)
  | 'f' :: cs => some ('\x0c', cs)
  | 'n' :: cs => some ('\n', cs)
  | 'r' :: cs => some ('\r', cs)
  | 't' :: cs => some ('\t', cs)
  | 'u' :: cs => numberEscape 4 cs
  | 'U' :: cs => numberEscape 8 cs
  | _ => none

/-- Characters that may stand in quotes as they are. -/
def isPlain (c : Char) : Bool :=
  c == '\t' || (32 ≤ c.toNat && c.toNat != 127)

/-- The text in quotes up to the closing quote, with the characters behind that. -/
def quoted (text : List Char) : (fuel : Nat) → List Char → Option (List Char × List Char)
  | 0, _ => none
  | fuel + 1, cs =>
    match cs with
    | [] => none
    | '"' :: cs => some (text, cs)
    | '\\' :: cs =>
      match escape cs with
      | none => none
      | some (c, cs) => quoted (text ++ [c]) fuel cs
    | c :: cs => if isPlain c then quoted (text ++ [c]) fuel cs else none

/-- An unsigned or a negative integer of 64 bits. -/
def isInteger (cs : List Char) : Bool :=
  match cs with
  | '-' :: ds => Yaml.isNumeral 10 (Nat.pow 2 63 + 1) ds
  | '+' :: ds => Yaml.isNumeral 10 (Nat.pow 2 64) ds
  | ds => Yaml.isNumeral 10 (Nat.pow 2 64) ds

/-- A number with a point. -/
def isFraction (cs : List Char) : Bool :=
  cs.contains '.' && (Yaml.decimal? (Yaml.dropSign cs)).isSome

/-- A value without quotes and brackets. -/
def bare (cs : List Char) : Setting :=
  let cs := Text.trim cs
  if isFraction cs || isInteger cs then .other else .text cs

def isKeyChar (c : Char) : Bool :=
  c.isAlphanum || c == '_' || c == '-'

/-- The key of a table's member, in quotes or not. -/
def key (cs : List Char) : Option (List Char) :=
  match cs with
  | '"' :: cs => (quoted [] (cs.length + 1) cs).map (·.2)
  | c :: cs => if isKeyChar c then some (cs.dropWhile isKeyChar) else none
  | [] => none

mutual

/-- The value at the front, with the blanks around it. -/
def value : (fuel : Nat) → List Char → Option (Setting × List Char)
  | 0, _ => none
  | fuel + 1, cs =>
    let found : Option (Setting × List Char) :=
      match skipGap cs with
      | 't' :: 'r' :: 'u' :: 'e' :: cs => some (.other, cs)
      | 'f' :: 'a' :: 'l' :: 's' :: 'e' :: cs => some (.other, cs)
      | '{' :: cs => (members fuel cs).map (Setting.other, ·)
      | '[' :: cs => (items fuel cs).map (Setting.other, ·)
      | '"' :: cs => (quoted [] (cs.length + 1) cs).map (fun q => (Setting.text q.1, q.2))
      | '\'' :: c :: '\'' :: cs => some (.text [c], cs)
      | '\'' :: _ => none
      | cs =>
        some (bare (cs.takeWhile (fun c => !isSeparator c)),
          cs.dropWhile (fun c => !isSeparator c))
    found.map (fun p => (p.1, skipGap p.2))

/-- The items of a list up to its bracket, with the characters behind that. -/
def items : (fuel : Nat) → List Char → Option (List Char)
  | 0, _ => none
  | fuel + 1, cs =>
    match cs with
    | ']' :: cs => some cs
    | cs =>
      match value fuel cs with
      | some (_, ',' :: cs) => items fuel cs
      | some (_, ']' :: cs) => some cs
      | _ => none

/-- The members of a table up to its brace, with the characters behind that. -/
def members : (fuel : Nat) → List Char → Option (List Char)
  | 0, _ => none
  | fuel + 1, cs =>
    match cs with
    | '}' :: cs => some cs
    | cs =>
      match (key (skipGap cs)).map skipGap with
      | some ('=' :: cs) =>
        match value fuel (skipGap cs) with
        | some (_, ',' :: cs) => members fuel cs
        | some (_, '}' :: cs) => some cs
        | _ => none
      | _ => none

end

/-- What a text says. -/
def setting (cs : List Char) : Setting :=
  match value (2 * cs.length + 2) cs with
  | some (s, []) => s
  | _ => .text cs

end CircuitFixtures.Inline
